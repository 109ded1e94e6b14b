import TensorCalculus.Expr.Basic
import TensorCalculus.Index.Odometer
import TensorCalculus.Power.Orbit

/-!
# The components of an expression

`Expr.component` gives the component at a list of values, one for each free index. Sums run in
row-major order from zero; nothing is reordered.
-/

namespace TensorCalculus

/-- The coefficient of one tensor basis element in the image of an element of the power. -/
def Embedding.coefficient (embedding : Embedding) (sign : Int) (orbit : Nat) : Binary .double :=
  match embedding with
  | .natural => .ofInt sign
  | .orthonormal => (Binary.ofInt sign).div (Binary.ofInt orbit).sqrt

/-- A row of zeros, with a slot for each index that an expression may have. -/
def blank : List Nat := List.replicate maxRank 0

/-- Refuses more than the slots of a row. -/
def checkSlots (n : Nat) : Checked Unit := if n ≤ maxRank then .ok () else .error .outOfBounds

def putSlot (row : List Nat) (position value : Nat) : Checked (List Nat) :=
  if position < row.length then .ok (row.set position value) else .error .outOfBounds

/-- Puts values into the slots at the given positions. -/
def place (row positions values : List Nat) : Checked (List Nat) :=
  (positions.zip values).foldlM (fun row p => putSlot row p.1 p.2) row

/-- Puts the values that belong to one operand into the slots at its positions. -/
def placeSide (side : Side) (slots : List (Side × Nat)) (values : List Nat) : Checked (List Nat) :=
  let own := (slots.zip values).filter fun p => p.1.1 = side
  place blank (own.map fun p => p.1.2) (own.map Prod.snd)

def putComponent {α : Type} (xs : Array α) (position : Nat) (x : α) : Checked (Array α) :=
  if position < xs.size then .ok (xs.setIfInBounds position x) else .error .outOfBounds

/-- The first `n` slots of a row. -/
def front (n : Nat) (row : List Nat) : Checked (List Nat) :=
  if n ≤ row.length then .ok (row.take n) else .error .outOfBounds

variable {α : Type} [Scalar α]

/-- The component of an indexed array. -/
def Leaf.component (m : Memory α) (l : Leaf α) (values : List Nat) : Checked α := do
  let slots ← place blank l.freeSlots values
  if l.summed.isEmpty then m.read l.storage (← Box.flatten (← front l.dims.length slots) l.dims)
  else
    Odometer.foldM (fun sum o => do
      let first ← place slots (l.summed.map Prod.fst) o.values
      let both ← place first (l.summed.map Prod.snd) o.values
      let flat ← Box.flatten (← front l.dims.length both) l.dims
      return sum + (← m.read l.storage flat))
      0 (Odometer.first l.extents)

/-- Separates the values of the `kept` indices that stay from those of the new indices. -/
def separate (kept : Nat) (values : List Nat) : Checked (List Nat × List Nat) :=
  if values.length < kept then .error .outOfBounds
  else .ok (values.take kept, values.drop kept)

namespace Expr

/-- The component at the given values of the free indices. -/
def component (m : Memory α) : Expr α → List Nat → Checked α
  | .leaf plan, values => plan.component m values
  | .evaluated free array, values => do
    match array.components[← Box.flatten values (free.map BoundIndex.dim)]? with
    | some x => .ok x
    | none => .error .outOfBounds
  | .sum op left right plan, values => do
    checkSlots plan.permutation.length
    let others ← plan.permutation.mapM (entry values)
    let x ← left.component m values
    let y ← right.component m others
    match op with
    | .plus => return x + y
    | .minus => return x - y
  | .scaled op inner scalar, values => do
    let x ← inner.component m values
    match op with
    | .times => return x * scalar
    | .over => return x / scalar
  | .product left right plan, values => do
    let l ← placeSide .left plan.slots values
    let r ← placeSide .right plan.slots values
    if plan.summed.isEmpty then
      let x ← left.component m (← front left.rank l)
      return x * (← right.component m (← front right.rank r))
    else
      Odometer.foldM (fun sum o => do
        let l ← place l (plan.summed.map Prod.fst) o.values
        let r ← place r (plan.summed.map Prod.snd) o.values
        let x ← left.component m (← front left.rank l)
        return sum + x * (← right.component m (← front right.rank r)))
        0 (Odometer.first plan.extents)
  | .bundle inner plan, values => do
    let buffer ← place blank plan.kept values
    let slots ← front plan.dims.length blank
    let flat ← entry values plan.kept.length
    let buffer ← place buffer plan.bundled (← Box.unflatten flat plan.dims slots)
    inner.component m (← front inner.rank buffer)
  | .split inner plan, values => do
    let (kept, new) ← separate (inner.rank - 1) values
    let others := (List.range inner.rank).filter (· != plan.position)
    let buffer ← place blank others kept
    let flat ← Box.flatten new plan.dims
    inner.component m (← front inner.rank (← putSlot buffer plan.position flat))
  | .embed inner plan, values => do
    let (kept, tuple) ← separate (inner.rank - 1) values
    checkSlots plan.degree
    if tuple.length ≠ plan.degree then throw .outOfBounds
    let (sign, sorted) := plan.kind.canonicalize tuple
    if sign = 0 then return 0
    let others := (List.range inner.rank).filter (· != plan.position)
    let buffer ← place blank others kept
    let rank ← plan.kind.rank sorted
    let buffer ← putSlot buffer plan.position rank
    let orbit ← Power.orbitSize sorted
    let x ← inner.component m (← front inner.rank buffer)
    return x * Scalar.ofDouble (plan.embedding.coefficient sign orbit)
  | .coembed inner plan, values => do
    let buffer ← place blank plan.kept values
    checkSlots plan.merged.length
    let tuple ← plan.kind.unrank plan.merged.length (← entry values plan.kept.length)
    let orbit ← Power.orbitSize tuple
    let sum ← Power.foldRearrangements (fun sum t => do
      let buffer ← place buffer plan.merged t
      let x ← inner.component m (← front inner.rank buffer)
      return if (plan.kind.canonicalize t).1 = 1 then sum + x else sum - x)
      orbit tuple 0
    return sum * Scalar.ofDouble (plan.embedding.coefficient 1 orbit)

/-- The value of an expression without free indices. -/
def value (m : Memory α) (e : Expr α) : Outcome ExprError α := do
  if e.rank = 0 then e.component m [] else Outcome.refuse (.notScalar e.freeSymbols)

/-- The `count` components in row-major order of the free indices, each put where the counter says. -/
def components (m : Memory α) (e : Expr α) (count : Nat) : Checked (Array α) :=
  Odometer.foldM (fun xs o => do
    let x ← e.component m o.values
    putComponent xs (← o.flat) x)
    (Array.replicate count 0) (Odometer.first (e.free.map BoundIndex.dim))

end Expr

end TensorCalculus
