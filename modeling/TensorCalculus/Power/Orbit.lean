import TensorCalculus.Power.Tuple

/-!
# Rearrangements of a tuple

The orbit of a sorted tuple are its different rearrangements. `orbitSize` counts them and
`nextPermutation?` steps from one to the next in lexicographic order; `foldRearrangements` visits
them in this order.
-/

namespace TensorCalculus.Power

/-- Continues the count after `i` entries, the last of which closed a run of `run` times `last`. -/
def orbitSizeFrom : (i size run last : Nat) → List Nat → Checked Nat
  | _, size, _, _, [] => .ok size
  | i, size, run, last, x :: xs => do
    let run := if x = last then run + 1 else 1
    orbitSizeFrom (i + 1) ((← Count.mul size (i + 1)) / run) run x xs

/-- The number of different rearrangements of a sorted tuple. -/
def orbitSize : List Nat → Checked Nat
  | [] => .ok 1
  | x :: xs => orbitSizeFrom 1 1 1 x xs

/-- Exchanges `x` with the last larger entry, if there is one: the entry and the changed list. -/
def exchangeLastLarger (x : Nat) : List Nat → Option (Nat × List Nat)
  | [] => none
  | y :: ys =>
    match exchangeLastLarger x ys with
    | some (z, zs) => some (z, y :: zs)
    | none => if x < y then some (y, x :: ys) else none

/-- The next rearrangement in lexicographic order. -/
def nextPermutation? : List Nat → Option (List Nat)
  | [] => none
  | x :: xs =>
    match nextPermutation? xs with
    | some ys => some (x :: ys)
    | none => (exchangeLastLarger x xs).map fun (y, ys) => y :: ys.reverse

/-- Steps to the next rearrangement; after the last one, back to the sorted tuple, with `false`. -/
def nextPermutation (tuple : List Nat) : Bool × List Nat :=
  match nextPermutation? tuple with
  | some next => (true, next)
  | none => (false, tuple.reverse)

/-- Folds over the tuple and the rearrangements after it, `n` tuples at most. -/
@[specialize]
def foldRearrangements {β : Type} (f : β → List Nat → Checked β) :
    Nat → List Nat → β → Checked β
  | 0, _, b => .ok b
  | n + 1, tuple, b => do
    let b ← f b tuple
    match nextPermutation? tuple with
    | some next => foldRearrangements f n next b
    | none => .ok b

end TensorCalculus.Power
