import TensorCalculus.Expr.Error
import TensorCalculus.Memory.Storage
import TensorCalculus.Power.Tuple
import TensorCalculus.Scalar

/-!
# Expressions in index notation

An `Expr` is a tree over indexed arrays. Every node keeps the plan by which it passes the values of
its free indices on to its operands: positions in lists of free indices, worked out once when the node
is built. `Expr.free` are the indices of the result in component order, `Expr.used` those summed at or
below a node.
-/

namespace TensorCalculus

/-- An index with the factor it ranges over. -/
structure BoundIndex where
  index : Index
  factor : Concept
  dim : Nat
deriving DecidableEq

namespace BoundIndex

def renamed (b : BoundIndex) (index : Index) : BoundIndex := { b with index }

def text (b : BoundIndex) : String := s!"{b.index.text}:{b.dim}"

end BoundIndex

/-- The symbols of a list of free indices. -/
def symbols (free : List BoundIndex) : List Index := free.map BoundIndex.index

inductive SumOp where
  | plus
  | minus
deriving DecidableEq, Repr

inductive ScaleOp where
  | times
  | over
deriving DecidableEq, Repr

/-- How a power sits in the tensor power: a basis element goes to the sum over its orbit, or to that
sum divided by the square root of the size of the orbit. -/
inductive Embedding where
  | natural
  | orthonormal
deriving DecidableEq, Repr

def Embedding.name : Embedding → String
  | .natural => "Natural"
  | .orthonormal => "Orthonormal"

inductive Side where
  | left
  | right
deriving DecidableEq, Repr

/-- An array with an index written on each factor. An index written twice is summed over. -/
structure Leaf (α : Type) where
  storage : Storage α
  written : List Index
  dims : List Nat
  free : List BoundIndex
  /-- The written position of each free index. -/
  freeSlots : List Nat
  used : List Index
  /-- The two written positions of each summed index. -/
  summed : List (Nat × Nat)
  /-- The extents of the summed indices. -/
  extents : List Nat

structure SumPlan where
  /-- For each free index on the right, its position on the left. -/
  permutation : List Nat
  used : List Index

structure ProductPlan where
  free : List BoundIndex
  used : List Index
  /-- For each free index of the product, the operand and the position it comes from. -/
  slots : List (Side × Nat)
  /-- The left and right positions of each contracted index. -/
  summed : List (Nat × Nat)
  /-- The extents of the contracted indices. -/
  extents : List Nat

structure BundlePlan where
  free : List BoundIndex
  /-- The inner positions of the indices that stay. -/
  kept : List Nat
  /-- The inner positions of the bundled indices. -/
  bundled : List Nat
  dims : List Nat

structure SplitPlan where
  free : List BoundIndex
  /-- The inner position of the split index. -/
  position : Nat
  dims : List Nat

structure EmbedPlan where
  free : List BoundIndex
  /-- The inner position of the embedded index. -/
  position : Nat
  kind : PowerKind
  degree : Nat
  embedding : Embedding

structure CoembedPlan where
  free : List BoundIndex
  /-- The inner positions of the merged indices, in the order of the tuple. -/
  merged : List Nat
  /-- The inner positions of the indices that stay. -/
  kept : List Nat
  kind : PowerKind
  embedding : Embedding

inductive Expr (α : Type) where
  | leaf (plan : Leaf α)
  /-- Components worked out before, in row-major order of the free indices. -/
  | evaluated (free : List BoundIndex) (array : OwnedArray α)
  | sum (op : SumOp) (left right : Expr α) (plan : SumPlan)
  | scaled (op : ScaleOp) (inner : Expr α) (scalar : α)
  | product (left right : Expr α) (plan : ProductPlan)
  | bundle (inner : Expr α) (plan : BundlePlan)
  | split (inner : Expr α) (plan : SplitPlan)
  | embed (inner : Expr α) (plan : EmbedPlan)
  | coembed (inner : Expr α) (plan : CoembedPlan)

namespace Expr
variable {α : Type}

/-- The indices of the result, in the order in which their values are given. -/
def free : Expr α → List BoundIndex
  | .leaf plan => plan.free
  | .evaluated free _ => free
  | .sum _ left _ _ => left.free
  | .scaled _ inner _ => inner.free
  | .product _ _ plan => plan.free
  | .bundle _ plan => plan.free
  | .split _ plan => plan.free
  | .embed _ plan => plan.free
  | .coembed _ plan => plan.free

/-- The indices summed somewhere in the tree. -/
def used : Expr α → List Index
  | .leaf plan => plan.used
  | .evaluated .. => []
  | .sum _ _ _ plan => plan.used
  | .scaled _ inner _ => inner.used
  | .product _ _ plan => plan.used
  | .bundle inner _ => inner.used
  | .split inner _ => inner.used
  | .embed inner _ => inner.used
  | .coembed inner _ => inner.used

def rank (e : Expr α) : Nat := e.free.length

def freeSymbols (e : Expr α) : List Index := symbols e.free

/-- The indices that a product contracts at its root. -/
def contracted : Expr α → List Index
  | .product left _ plan => plan.summed.filterMap fun p => left.free[p.1]?.map BoundIndex.index
  | _ => []

/-- Whether the tree reads memory in the range. -/
def overlaps (m : Memory α) (range : MemoryRange) : Expr α → Bool
  | .leaf plan => (m.range plan.storage).overlaps range
  | .evaluated _ array => (m.regionRange array.region).overlaps range
  | .sum _ left right _ => left.overlaps m range || right.overlaps m range
  | .scaled _ inner _ => inner.overlaps m range
  | .product left right _ => left.overlaps m range || right.overlaps m range
  | .bundle inner _ => inner.overlaps m range
  | .split inner _ => inner.overlaps m range
  | .embed inner _ => inner.overlaps m range
  | .coembed inner _ => inner.overlaps m range

end Expr

end TensorCalculus
