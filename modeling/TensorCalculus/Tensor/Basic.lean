import TensorCalculus.Expr.Build
import TensorCalculus.Expr.Session
import TensorCalculus.Memory.Generator
import TensorCalculus.Space.Basic

/-!
# Tensors

A `Tensor` is an array with the factors that indices written on it range over. A tensor on a space has
as many components as the space has dimensions, or is refused with a `TensorError`. Owned components are
put into memory when the tensor is made.
-/

namespace TensorCalculus

inductive TensorError where
  | count (expected found : Nat)
  | powerTuple (tuple : List Nat) (degree dim : Nat)
  | array (e : ArrayError)
  | concept (e : ConceptError)

/-- The kind of a refusal, with the path to a cause elsewhere. -/
def TensorError.name : TensorError → String
  | .count .. => "Count"
  | .powerTuple .. => "PowerTuple"
  | .array e => "Array." ++ e.name
  | .concept e => "Concept." ++ e.name

def TensorError.message : TensorError → String
  | .count expected found =>
    s!"tensor creation error: concept of dimension {expected} cannot hold {found} components"
  | .powerTuple tuple degree dim =>
    "[" ++ ", ".intercalate (tuple.map toString) ++
      s!"] does not index a degree {degree} power of a space of dimension {dim}"
  | .array e => e.message
  | .concept e => e.message

instance : MonadLift (Except ArrayError) (Except TensorError) where
  monadLift := Except.mapError .array

structure Tensor (α : Type) where
  factors : List Concept
  storage : Storage α

/-- What indices written on a value of the space range over. -/
def Space.factors (s : Space) : Outcome ConceptError (List Concept) := do
  (← s.concept).indexedFactors

namespace Tensor
variable {α : Type}

/-- The array as a value of the space. -/
def on (space : Space) (storage : Storage α) : Outcome ConceptError (Tensor α) := do
  return ⟨← space.factors, storage⟩

/-- The tensor with indices written on it. -/
def indexed (t : Tensor α) (written : List Index) : Except ExprError (Expr α) :=
  Expr.indexed t.storage written t.factors

/-! ### Components for a space -/

/-- Components for the space, which have to be as many as its dimension. -/
def checkCount (space : Space) (components : List α) : Outcome TensorError (List α) := do
  let dim ← space.dimension
  if components.length = dim then .ok components
  else Outcome.refuse (.count dim components.length)

def filled (space : Space) (x : α) : Checked (List α) := do
  return List.replicate (← space.dimension) x

def zeros [Scalar α] (space : Space) : Checked (List α) := filled space 0

/-- The components that the generator gives. -/
def generated (space : Space) (generate : ComponentIndex → Checked α) : Checked (List α) := do
  let dim ← space.dimension
  (List.range dim).mapM fun k => generate ⟨k, dim⟩

/-- The array that computes the components on demand. -/
def procedural (space : Space) (generate : ComponentIndex → Checked α) :
    Checked (Storage α) := do
  return .computed (← space.dimension) generate

/-- A view of `length` cells from `start` on, as the components of a value of the space. -/
def view (space : Space) (start length : Nat) : Outcome TensorError Region := do
  let dim ← space.dimension
  match Region.view start length dim with
  | .ok region => .ok region
  | .error e => Outcome.refuse (.array e)

/-! ### Pairing -/

/-- The first `count` symbols. -/
def firstSymbols (count : Nat) : List Index :=
  (List.range count).map fun k => ⟨UInt32.ofNat k⟩

/-- The natural pairing with a value of the dual space: every factor is contracted. -/
def pair [Scalar α] (m : Memory α) (x y : Tensor α) : Outcome ExprError α := do
  let indices := firstSymbols x.factors.length
  let left ← x.indexed indices
  let right ← y.indexed indices
  let product ← Expr.mul left right
  product.value m

end Tensor

end TensorCalculus
