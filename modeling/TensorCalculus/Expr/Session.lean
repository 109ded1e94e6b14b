import TensorCalculus.Expr.Build
import TensorCalculus.Expr.Component

/-!
# Evaluation and assignment

A `Session` holds memory and a record of what was done in it. `Expr.eval` works out the components of
an expression once and for all, and keeps them in an array of its own. A `Target` is a tensor indexed for
writing: an assignment is accepted if the free indices match and, unless the check is waived, the
right-hand side reads none of the target's memory. It then goes through the components in the target's
order, one at a time.
-/

namespace TensorCalculus

inductive Update where
  | assign
  | add
  | sub
deriving DecidableEq, Repr

def Update.sign : Update → String
  | .assign => "="
  | .add => "+="
  | .sub => "-="

inductive Event where
  /-- The components of an expression with these free indices are worked out. -/
  | evaluation (free : List Index) (count : Nat)
  /-- A target is updated. -/
  | update (op : Update) (target source : List BoundIndex)
  /-- The check for aliasing is waived. -/
  | unchecked (range : MemoryRange)
  /-- An assignment is refused for aliasing. -/
  | aliased (range : MemoryRange)

inductive Event.Level where
  | debug
  | warn

def Event.Level.name : Event.Level → String
  | .debug => "DEBUG"
  | .warn => "WARN"

namespace Event

def level : Event → Level
  | .evaluation .. | .update .. => .debug
  | .unchecked _ | .aliased _ => .warn

def listText (free : List BoundIndex) : String :=
  "(" ++ ", ".intercalate (free.map BoundIndex.text) ++ ")"

/-- The text of an event; `rangeText` writes ranges of memory. -/
def text (rangeText : MemoryRange → String) : Event → String
  | .evaluation free count => s!"evaluate {IndexList.text free} into {count} components"
  | .update op target source => s!"{listText target} {op.sign} {listText source}"
  | .unchecked range => s!"aliasing check skipped on assignment to {rangeText range}"
  | .aliased range => s!"aliased assignment to {rangeText range} rejected"

end Event

structure Session (α : Type) where
  memory : Memory α
  /-- What was done, the latest last. -/
  log : List Event

/-- A computation in a session. What it did before it failed stays done. -/
abbrev Action (α β : Type) := EStateM (Failure ExprError) (Session α) β

namespace Action
variable {α β : Type}

def ofOutcome (x : Outcome ExprError β) : Action α β := fun s =>
  match x with
  | .ok b => .ok b s
  | .error e => .error e s

instance : MonadLift (Except (Failure ExprError)) (EStateM (Failure ExprError) (Session α)) where
  monadLift := ofOutcome

def record (event : Event) : Action α Unit := modify fun s => { s with log := s.log ++ [event] }

end Action

variable {α : Type} [Scalar α]

/-- Works out all components of an expression. -/
def Expr.eval (e : Expr α) : Action α (Expr α) := do
  let dims := e.free.map BoundIndex.dim
  Action.ofOutcome (liftM (checkRank dims.length : Except ExprError Unit))
  let count ← Action.ofOutcome (liftM (Count.product dims))
  Action.record (.evaluation e.freeSymbols count)
  let components ← Action.ofOutcome (liftM (e.components (← get).memory count))
  let (memory, array) := (← get).memory.own components
  modify fun s => { s with memory }
  return .evaluated e.free array

/-- A tensor indexed for writing. -/
structure Target where
  region : Region
  free : List BoundIndex
  /-- Whether the check for aliasing is waived. -/
  unchecked : Bool

namespace Target

def of (region : Region) (written : List Index) (factors : List Concept) (unchecked : Bool) :
    Except ExprError Target := do
  let dims ← factorDims written factors
  checkDistinct written
  let free := (written.zip (factors.zip dims)).map fun (index, factor, dim) => ⟨index, factor, dim⟩
  return ⟨region, free, unchecked⟩

def dims (t : Target) : List Nat := t.free.map BoundIndex.dim

/-- What the update puts at the current position: the place in the target, and the component. -/
def updated (t : Target) (op : Update) (permutation : List Nat) (e : Expr α) (o : Odometer)
    (m : Memory α) : Checked (Nat × α) := do
  checkSlots permutation.length
  let x ← e.component m (← permutation.mapM (entry o.values))
  let flat ← o.flat
  t.region.check flat
  match op with
  | .assign => return (flat, x)
  | .add => return (flat, (← m.readRegion t.region flat) + x)
  | .sub => return (flat, (← m.readRegion t.region flat) - x)

/-- Updates the next `n` components. -/
def storeSteps (t : Target) (op : Update) (permutation : List Nat) (e : Expr α) :
    Nat → Odometer → Memory α → Memory α × Option Fault
  | 0, _, m => (m, none)
  | n + 1, o, m =>
    match t.updated op permutation e o m with
    | .ok (place, x) => storeSteps t op permutation e n o.next (m.put t.region place x)
    | .error fault => (m, some fault)

/-- Updates all components. -/
def store (t : Target) (op : Update) (permutation : List Nat) (e : Expr α) (m : Memory α) :
    Memory α × Option Fault :=
  let o := Odometer.first t.dims
  t.storeSteps op permutation e o.remaining o m

/-- Updates the target from the expression, whose free indices may come in any order. -/
def update (t : Target) (op : Update) (e : Expr α) : Action α Unit := do
  let permutation ← Action.ofOutcome (liftM (matchFree t.free e.free))
  let m := (← get).memory
  let range := m.regionRange t.region
  if t.unchecked then Action.record (.unchecked range)
  else if e.overlaps m range then
    Action.record (.aliased range)
    throw (.error (.aliased range))
  Action.record (.update op t.free e.free)
  let (memory, fault) := t.store op permutation e m
  modify fun s => { s with memory }
  match fault with
  | none => return ()
  | some f => throw (.fault f)

end Target

end TensorCalculus
