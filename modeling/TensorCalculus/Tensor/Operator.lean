import TensorCalculus.Count
import TensorCalculus.Scalar

/-!
# Operators by direct loops

A map from a space of `columns` dimensions to one of `rows` is given by its components row by row.
Values are given by what reads their components; results are lists of components. Sums are added up
from zero, from the left.
-/

namespace TensorCalculus.Operator
variable {α : Type}

/-- The components that `f` gives at `0, …, n - 1`. -/
def tabulate (n : Nat) (f : Nat → Checked α) : Checked (List α) := (List.range n).mapM f

variable [Scalar α]

/-- The sum of `f j` over `j < n`. -/
def sumBelow (n : Nat) (f : Nat → Checked α) : Checked α :=
  (List.range n).foldlM (fun sum j => do return sum + (← f j)) 0

/-- The image of `x` under the map `a`. -/
def apply (rows columns : Nat) (a x : Nat → Checked α) : Checked (List α) :=
  tabulate rows fun i => do
    let row ← Count.mul i columns
    sumBelow columns fun j => do return (← a (← Count.add row j)) * (← x j)

/-- The map `b` followed by the map `a`, which goes out of `inner` dimensions. -/
def compose (rows inner columns : Nat) (a b : Nat → Checked α) : Checked (List α) := do
  tabulate (← Count.mul rows columns) fun index => do
    let i ← Count.div index columns
    let k ← Count.mod index columns
    sumBelow inner fun j => do
      let x ← a (← Count.add (← Count.mul i inner) j)
      return x * (← b (← Count.add (← Count.mul j columns) k))

/-- The same components with rows and columns exchanged. -/
def transpose (rows columns : Nat) (a : Nat → Checked α) : Checked (List α) := do
  tabulate (← Count.mul columns rows) fun index => do
    let j ← Count.div index rows
    let i ← Count.mod index rows
    a (← Count.add (← Count.mul i columns) j)

/-- The sum of the diagonal of an operator on a space of `n` dimensions. -/
def trace (n : Nat) (a : Nat → Checked α) : Checked α :=
  sumBelow n fun i => do a (← Count.add (← Count.mul i n) i)

def add (n : Nat) (a b : Nat → Checked α) : Checked (List α) :=
  tabulate n fun k => do return (← a k) + (← b k)

def sub (n : Nat) (a b : Nat → Checked α) : Checked (List α) :=
  tabulate n fun k => do return (← a k) - (← b k)

def neg (n : Nat) (a : Nat → Checked α) : Checked (List α) := tabulate n fun k => do return -(← a k)

def scale (n : Nat) (a : Nat → Checked α) (s : α) : Checked (List α) :=
  tabulate n fun k => do return (← a k) * s

end TensorCalculus.Operator
