import TensorCalculus.Count
import TensorCalculus.Index.Error
import TensorCalculus.Scalar

/-!
# Component indices and computed components

A component index is a flat position in an array, together with the number of components it was made
for. An array without memory computes its components from it.
-/

namespace TensorCalculus

structure ComponentIndex where
  value : Nat
  count : Nat
deriving DecidableEq, Repr

namespace ComponentIndex

/-- The index `value` of `count` components; in a checked call it has to lie in range. -/
def of (value count : Nat) (checked : Bool) : Except IndexError ComponentIndex :=
  if checked && count ≤ value then .error (.outOfRange value count) else .ok ⟨value, count⟩

def start (count : Nat) : ComponentIndex := ⟨0, count⟩

def next (k : ComponentIndex) : Checked ComponentIndex := do
  return ⟨← Count.add k.value 1, k.count⟩

def atEnd (k : ComponentIndex) : Bool := k.count ≤ k.value

def text (k : ComponentIndex) : String := s!"{k.value}/{k.count}"

end ComponentIndex

namespace Generator
variable {α : Type} [Scalar α]

/-- Every component is zero. -/
def zeros (_ : ComponentIndex) : Checked α := .ok 0

/-- The components of the identity matrix of order `n`, row by row. -/
def kronecker (n : Nat) (k : ComponentIndex) : Checked α := do
  let row ← Count.div k.value n
  let column ← Count.mod k.value n
  return if row = column then 1 else 0

end Generator

end TensorCalculus
