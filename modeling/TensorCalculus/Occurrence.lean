/-!
# Occurrences in a list

Lists read as ordered collections whose elements are compared by value: which elements occur how
often, and which occur in two lists. Results keep the order of first occurrence.
-/

namespace TensorCalculus.Occurrence
variable {α : Type} [BEq α]

/-- The elements without repetition, each at its first occurrence. -/
def distinct (xs : List α) : List α := xs.eraseDups

/-- The elements that occur exactly `n` times. -/
def occurring (n : Nat) (xs : List α) : List α := (distinct xs).filter fun x => xs.count x == n

/-- The elements that occur more than twice, with their number of occurrences. -/
def overused (xs : List α) : List (α × Nat) :=
  ((distinct xs).filter fun x => xs.count x > 2).map fun x => (x, xs.count x)

/-- The elements of `xs` that also occur in `ys`. -/
def common (xs ys : List α) : List α := xs.filter ys.contains

/-- Equality as sets: order and multiplicity do not count. -/
def sameElements (xs ys : List α) : Bool := xs.all ys.contains && ys.all xs.contains

/-- The first element of `xs` that was already seen, in `seen` or earlier in `xs`. -/
def firstRepeatedFrom (seen : List α) : List α → Option α
  | [] => none
  | x :: xs => if seen.contains x then some x else firstRepeatedFrom (x :: seen) xs

/-- The element whose second occurrence comes first. -/
def firstRepeated? (xs : List α) : Option α := firstRepeatedFrom [] xs

end TensorCalculus.Occurrence
