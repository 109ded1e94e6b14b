/-!
# Counts

A count is a natural number below `2 ^ 64`. Arithmetic on counts is exact or stops: a `Checked`
computation gives its value or the `Fault` that stopped it, and a sum, product or difference that
leaves the range is the fault `overflow`. A computation that may also be refused for a reason of its
own gives an `Outcome`.
-/

namespace TensorCalculus

/-- What stops a computation. -/
inductive Fault where
  /-- A count left the range of 64 bits. -/
  | overflow
  /-- A division by zero, or the remainder of one. -/
  | divideByZero
  /-- A list or an owned array was accessed past its end. -/
  | outOfBounds
  /-- A view or a computed array of `count` components was accessed at `index`. -/
  | outsideArray (index count : Nat)
  /-- The component index `value/counted` was used on an array of `count` components. -/
  | foreignIndex (value counted count : Nat)
  /-- Two expressions were added that do not have the same free indices. -/
  | unmatchedIndices
  /-- Two expressions were multiplied that cannot be contracted. -/
  | unlawfulContraction
deriving DecidableEq, Repr

/-- The name of a fault of plain arithmetic or access; the others are told by their text. -/
def Fault.name? : Fault → Option String
  | .overflow => "Overflow"
  | .divideByZero => "DivideByZero"
  | .outOfBounds => "IndexOutOfBounds"
  | .outsideArray .. | .foreignIndex .. | .unmatchedIndices | .unlawfulContraction => none

/-- The text of a fault that has one. -/
def Fault.message? : Fault → Option String
  | .overflow | .divideByZero | .outOfBounds => none
  | .outsideArray index count => some s!"index {index} out of range for {count} components"
  | .foreignIndex value counted count =>
    some s!"component index {value}/{counted} addresses an array of {count} components"
  | .unmatchedIndices => some "free indices must match"
  | .unlawfulContraction => some "summed indices must be dual and not reused"

abbrev Checked (α : Type) := Except Fault α

/-- Why a computation gives no value: it was stopped, or refused with a cause of its own. -/
inductive Failure (ε : Type) where
  | fault (f : Fault)
  | error (e : ε)
deriving Repr

abbrev Outcome (ε α : Type) := Except (Failure ε) α

def Failure.map {ε δ : Type} (f : ε → δ) : Failure ε → Failure δ
  | .fault x => .fault x
  | .error e => .error (f e)

instance {ε : Type} : MonadLift (Except Fault) (Except (Failure ε)) where
  monadLift := Except.mapError .fault

instance {ε : Type} : MonadLift (Except ε) (Except (Failure ε)) where
  monadLift := Except.mapError .error

namespace Outcome
variable {ε δ α : Type}

/-- The computation is refused because of `e`. -/
def refuse (e : ε) : Outcome ε α := .error (.error e)

/-- Restates the cause of a refusal. -/
def mapCause (f : ε → δ) (x : Outcome ε α) : Outcome δ α := x.mapError (Failure.map f)

end Outcome

namespace Count

/-- The first number that is not a count. -/
def limit : Nat := UInt64.size

/-- The largest count. -/
def largest : Nat := limit - 1

def check (n : Nat) : Checked Nat := if n < limit then .ok n else .error .overflow

def add (a b : Nat) : Checked Nat := check (a + b)

def mul (a b : Nat) : Checked Nat := check (a * b)

def sub (a b : Nat) : Checked Nat := if b ≤ a then .ok (a - b) else .error .overflow

def div (a b : Nat) : Checked Nat := if b = 0 then .error .divideByZero else .ok (a / b)

def mod (a b : Nat) : Checked Nat := if b = 0 then .error .divideByZero else .ok (a % b)

/-- The product of a list, multiplied up from the left. -/
def product (ns : List Nat) : Checked Nat := ns.foldlM mul 1

/-- The sum of a list, added up from the left. -/
def sum (ns : List Nat) : Checked Nat := ns.foldlM add 0

/-- Addition that stays at the largest count. -/
def addSaturating (a b : Nat) : Nat := min (a + b) largest

/-- Multiplication that stays at the largest count. -/
def mulSaturating (a b : Nat) : Nat := min (a * b) largest

end Count

/-- The entry of `xs` at `k`. -/
def entry {α : Type} (xs : List α) (k : Nat) : Checked α :=
  match xs[k]? with
  | some x => .ok x
  | none => .error .outOfBounds

end TensorCalculus
