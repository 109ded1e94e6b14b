import TensorCalculus.Count
import TensorCalculus.Occurrence
import TensorCalculus.Index.Symbol
import TensorCalculus.Index.Error
import TensorCalculus.Index.Odometer
import TensorCalculus.Index.Renaming
import TensorCalculus.Concept.Tag
import TensorCalculus.Concept.Basic
import TensorCalculus.Concept.Dual
import TensorCalculus.Concept.Error
import TensorCalculus.Concept.Query
import TensorCalculus.Power.Tuple
import TensorCalculus.Power.Orbit
import TensorCalculus.Concept.Family
import TensorCalculus.Space.Basic
import TensorCalculus.Binary.Format
import TensorCalculus.Binary.Arithmetic
import TensorCalculus.Binary.Decimal
import TensorCalculus.Scalar
import TensorCalculus.Memory.Basic
import TensorCalculus.Memory.Pointer
import TensorCalculus.Memory.Generator
import TensorCalculus.Memory.Storage
import TensorCalculus.Memory.Copy
import TensorCalculus.Expr.Error
import TensorCalculus.Expr.Basic
import TensorCalculus.Expr.Build
import TensorCalculus.Expr.Component
import TensorCalculus.Expr.Rename
import TensorCalculus.Expr.Session
import TensorCalculus.Expr.Text
import TensorCalculus.Tensor.Basic
import TensorCalculus.Tensor.Operator
import TensorCalculus.Layout.Basic
import TensorCalculus.Layout.Command
import TensorCalculus.Main
import TensorCalculus.Json.Reader
import TensorCalculus.Json.Number
import TensorCalculus.Interchange
import TensorCalculus.Space.Euclidean
import TensorCalculus.Tensor.Value
import TensorCalculus.Proofs.Binomial
import TensorCalculus.Proofs.Rank
import TensorCalculus.Proofs.Box
import TensorCalculus.Proofs.Occurrence
import TensorCalculus.Proofs.Rearrangement
import TensorCalculus.Proofs.Slots
import TensorCalculus.Proofs.FreeIndex
import TensorCalculus.Proofs.Leaf
import TensorCalculus.Proofs.Build
import TensorCalculus.Proofs.Used
import TensorCalculus.Proofs.Relabel
import TensorCalculus.Proofs.Renaming
import TensorCalculus.Proofs.Sorting
import TensorCalculus.Proofs.Orbit
import TensorCalculus.Proofs.ExactScalar
import TensorCalculus.Proofs.Named
import TensorCalculus.Proofs.Session
import TensorCalculus.Proofs.Family
import TensorCalculus.Proofs.Invariant
import TensorCalculus.Proofs.Denotation
import TensorCalculus.Proofs.InRange
import TensorCalculus.Proofs.Safety
import TensorCalculus.Proofs.Assignment
import TensorCalculus.Proofs.Embedding
import TensorCalculus.Proofs.Dual
import TensorCalculus.Proofs.Resolution
import TensorCalculus.Proofs.Functor
import TensorCalculus.Proofs.Bundling
import TensorCalculus.Proofs.Acceptance
import TensorCalculus.Proofs.Bracketed
import TensorCalculus.Proofs.Contraction
import TensorCalculus.Proofs.Replacement
import TensorCalculus.Proofs.OnSpace
import TensorCalculus.Proofs.Pairing
import TensorCalculus.Proofs.DirectLoops
import TensorCalculus.Proofs.Signature
import TensorCalculus.Proofs.PowerComponent
import TensorCalculus.Proofs.OperatorAlgebra
import TensorCalculus.Proofs.Refusal
import TensorCalculus.Proofs.TreeLayout
import TensorCalculus.Proofs.Enumeration
import TensorCalculus.Proofs.Inheritance
import TensorCalculus.Proofs.BlockCopy
import TensorCalculus.Proofs.Flattening
import TensorCalculus.Proofs.Image
import TensorCalculus.Proofs.SlotPartition
import TensorCalculus.Proofs.Ink
