import TensorCalculus.Power.Tuple
import TensorCalculus.Tensor.Basic
import TensorCalculus.Tensor.Operator

/-!
# Values of spaces

A `Value` owns its components, as many as its space has dimensions. Sums, multiples and pairings of
values are worked out component by component. A value of a power has a component at every tuple: that of
a symmetric power does not depend on the order of the tuple, that of an exterior power takes the sign of
the sorting permutation and vanishes where an entry repeats.
-/

namespace TensorCalculus

/-- The component at a tuple of the power whose stored components `read` gives. -/
def PowerKind.component {α : Type} [Scalar α] (kind : PowerKind) (degree dim : Nat)
    (read : Nat → Checked α) (tuple : List Nat) : Outcome TensorError α := do
  if tuple.length ≠ degree || tuple.any fun a => dim ≤ a then
    Outcome.refuse (.powerTuple tuple degree dim)
  let (sign, sorted) := kind.canonicalize tuple
  if sign = 0 then return 0
  let x ← read (← kind.rank sorted)
  return if sign = 1 then x else -x

structure Value (α : Type) where
  space : Space
  components : List α

namespace Value
variable {α : Type}

/-- The value with the given components. -/
def of (space : Space) (components : List α) : Outcome TensorError (Value α) := do
  return ⟨space, ← Tensor.checkCount space components⟩

def read (v : Value α) (k : Nat) : Checked α := entry v.components k

/-- Puts the components into memory. -/
def store (v : Value α) (m : Memory α) : Memory α × Storage α :=
  let (m, region) := m.allocate v.components
  (m, .writable region)

variable [Scalar α]

def add (x y : Value α) : Checked (List α) := do Operator.add (← x.space.dimension) x.read y.read

def sub (x y : Value α) : Checked (List α) := do Operator.sub (← x.space.dimension) x.read y.read

def neg (x : Value α) : Checked (List α) := do Operator.neg (← x.space.dimension) x.read

def scale (x : Value α) (s : α) : Checked (List α) := do
  Operator.scale (← x.space.dimension) x.read s

/-- The natural pairing of a value with one of the dual space. -/
def pair (x y : Value α) : Outcome ExprError α := do
  let (m, xs) := x.store ⟨1, #[]⟩
  let (m, ys) := y.store m
  Tensor.pair m (← Tensor.on x.space xs) (← Tensor.on y.space ys)

/-- The component of a value of a power at a tuple. -/
def powerComponent (x : Value α) (kind : PowerKind) (degree : Nat) (factor : Space)
    (tuple : List Nat) : Outcome TensorError α := do
  kind.component degree (← factor.dimension) x.read tuple

end Value

end TensorCalculus
