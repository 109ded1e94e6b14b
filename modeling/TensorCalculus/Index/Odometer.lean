import TensorCalculus.Count
import TensorCalculus.Index.Error

/-!
# Boxes and the row-major counter

A box is given by its extents. `Box.flatten` numbers its multi-indices in row-major order, the last index
running fastest, and `Box.unflatten` writes the multi-index of a number. Lists of different lengths are
read up to the end of the shorter one.

An `Odometer` runs through the multi-indices of a box, the last index fastest. A box without extents
has one (empty) multi-index, a box with a zero extent has none. `foldM` visits what is left of the
run.
-/

namespace TensorCalculus

namespace Box

/-- The number of multi-indices, in exact arithmetic. -/
def size (dims : List Nat) : Nat := dims.foldr (· * ·) 1

/-- The flat position of a multi-index. -/
def flatten (values dims : List Nat) : Checked Nat :=
  (values.zip dims).foldlM (fun flat p => do Count.add (← Count.mul flat p.2) p.1) 0

/-- The multi-index at the flat position `flat`, and what the position counts beyond the box. -/
def digits : List Nat → Nat → Checked (List Nat × Nat)
  | [], flat => .ok ([], flat)
  | d :: ds, flat => do
    let (values, rest) ← digits ds flat
    return ((← Count.mod rest d) :: values, ← Count.div rest d)

/-- Overwrites the first slots by the multi-index at `flat`. -/
def unflatten (flat : Nat) (dims slots : List Nat) : Checked (List Nat) := do
  let (values, _) ← digits (dims.take slots.length) flat
  return values ++ slots.drop values.length

end Box

structure Odometer where
  dims : List Nat
  values : List Nat
  done : Bool
deriving DecidableEq, Repr

namespace Odometer

/-- The counter at the first multi-index. -/
def first (dims : List Nat) : Odometer := ⟨dims, dims.map fun _ => 0, dims.contains 0⟩

def of (dims : List Nat) : Except IndexError Odometer := do
  checkRank dims.length
  return first dims

def reset (o : Odometer) : Odometer := first o.dims

def rank (o : Odometer) : Nat := o.dims.length

/-- The number of multi-indices in the box. -/
def size (o : Odometer) : Checked Nat := Count.product o.dims

def flat (o : Odometer) : Checked Nat := Box.flatten o.values o.dims

/-- Counts up at the last extent and carries to the left; tells whether the carry went through. -/
def carry : List Nat → List Nat → List Nat × Bool
  | d :: ds, v :: vs =>
    match carry ds vs with
    | (ws, false) => (v :: ws, false)
    | (ws, true) => if v + 1 < d then ((v + 1) :: ws, false) else (0 :: ws, true)
  | _, _ => ([], true)

def next (o : Odometer) : Odometer :=
  let (values, through) := carry o.dims o.values
  { o with values, done := o.done || through }

/-- The position of the current multi-index, in exact arithmetic. -/
def position (o : Odometer) : Nat :=
  (o.values.zip o.dims).foldl (fun flat p => flat * p.2 + p.1) 0

/-- The number of multi-indices still to be visited. -/
def remaining (o : Odometer) : Nat := if o.done then 0 else Box.size o.dims - o.position

variable {m : Type → Type} [Monad m] {β : Type}

/-- Folds over the next `n` multi-indices. -/
@[specialize]
def foldSteps (f : β → Odometer → m β) : Nat → Odometer → β → m β
  | 0, _, b => pure b
  | n + 1, o, b => do foldSteps f n o.next (← f b o)

/-- Folds over the rest of the run. -/
@[specialize]
def foldM (f : β → Odometer → m β) (b : β) (o : Odometer) : m β := foldSteps f o.remaining o b

/-- The flat positions of the rest of the run, and the counter behind it. -/
def walk (o : Odometer) : Checked (List Nat × Odometer) := do
  let visit := fun (seen, _) (o : Odometer) => do return ((← o.flat) :: seen, o.next)
  let (seen, last) ← foldM (m := Except Fault) visit ([], o) o
  return (seen.reverse, last)

end Odometer

end TensorCalculus
