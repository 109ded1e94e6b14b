import TensorCalculus.Memory.Storage

/-!
# Copying between arrays

A copy goes component by component from the front. If it stops at a fault, what was copied before
stays.
-/

namespace TensorCalculus.Memory
variable {α : Type}

/-- What is copied at distance `k` from the offsets: a place in the target, and the component. -/
def copied (source : Storage α) (target : Region) (sourceOffset targetOffset k : Nat)
    (m : Memory α) : Checked (Nat × α) := do
  let place ← Count.add targetOffset k
  let x ← m.read source (← Count.add sourceOffset k)
  target.check place
  return (place, x)

/-- Copies `n` components from distance `k` on. -/
def copyFrom (source : Storage α) (target : Region) (sourceOffset targetOffset : Nat) :
    (n k : Nat) → Memory α → Memory α × Option Fault
  | 0, _, m => (m, none)
  | n + 1, k, m =>
    match copied source target sourceOffset targetOffset k m with
    | .ok (place, x) =>
      copyFrom source target sourceOffset targetOffset n (k + 1) (m.put target place x)
    | .error fault => (m, some fault)

/-- Whether `count` components from `offset` reach past an array of `total`, or past all counts. -/
def exceeds (offset count total : Nat) : Bool :=
  match Count.add offset count with
  | .ok stop => total < stop
  | .error _ => true

/-- Copies `count` components. A checked copy that does not fit is refused before it starts. -/
def copy (source : Storage α) (target : Region) (sourceOffset targetOffset count : Nat)
    (checked : Bool) (m : Memory α) : Memory α × Outcome ArrayError Unit :=
  if checked && (exceeds sourceOffset count source.count || exceeds targetOffset count target.count)
  then
    (m, .refuse (.copyRange sourceOffset source.count targetOffset target.count count))
  else
    match copyFrom source target sourceOffset targetOffset count 0 m with
    | (m, none) => (m, .ok ())
    | (m, some fault) => (m, .error (.fault fault))

end TensorCalculus.Memory
