import TensorCalculus.Memory.Basic
import TensorCalculus.Memory.Generator

/-!
# Arrays in memory

`Memory` is a row of cells. An array is a region of it, which several arrays may share, or it computes
its components and has no memory. Reading and writing past the end is a fault and changes nothing. New
cells are put behind those that are there, so they are in no region made before.
-/

namespace TensorCalculus

/-- Consecutive cells of memory: an array's own, or a view of them. -/
structure Region where
  start : Nat
  count : Nat
  isOwned : Bool
deriving DecidableEq, Repr

/-- The fault of an access at `k` past the end. -/
def Region.fault (r : Region) (k : Nat) : Fault :=
  if r.isOwned then .outOfBounds else .outsideArray k r.count

/-- Refuses an access past the end. -/
def Region.check (r : Region) (k : Nat) : Checked Unit :=
  if k < r.count then .ok () else .error (r.fault k)

/-- What the components of an array are taken from. -/
inductive Storage (α : Type) where
  | writable (region : Region)
  | readOnly (region : Region)
  | computed (count : Nat) (generate : ComponentIndex → Checked α)

namespace Storage
variable {α : Type}

def count : Storage α → Nat
  | .writable r | .readOnly r => r.count
  | .computed n _ => n

def qualifier : Storage α → Qualifier
  | .writable _ => .nonconstMemory
  | .readOnly _ => .constMemory
  | .computed .. => .procedural

/-- The cells that the array occupies. -/
def region? : Storage α → Option Region
  | .writable r | .readOnly r => some r
  | .computed .. => none

end Storage

/-- An array that only its owner reads and nobody writes: its components, and the cells they are in. -/
structure OwnedArray (α : Type) where
  components : Array α
  region : Region

def OwnedArray.toList {α : Type} (a : OwnedArray α) : List α := a.components.toList

structure Memory (α : Type) where
  /-- The number of bytes of a cell. -/
  width : Nat
  cells : Array α

namespace Memory
variable {α : Type}

/-- The address of a cell. No cell is at the null address. -/
def address (m : Memory α) (cell : Nat) : Nat := m.width * (cell + 1)

def regionRange (m : Memory α) (r : Region) : MemoryRange := .of (m.address r.start) r.count m.width

/-- The bytes that an array occupies. -/
def range (m : Memory α) (s : Storage α) : MemoryRange :=
  match s.region? with
  | some r => m.regionRange r
  | none => .empty

/-- What the array says of itself. -/
def info (m : Memory α) (s : Storage α) : Checked ArrayInfo := do
  return ⟨s.qualifier, s.count, ← (m.range s).length, s.region?.isNone⟩

/-- Puts the components into new cells. -/
def allocate (m : Memory α) (components : List α) : Memory α × Region :=
  ({ m with cells := m.cells ++ components }, ⟨m.cells.size, components.length, true⟩)

/-- Makes an array of the components. -/
def own (m : Memory α) (components : Array α) : Memory α × OwnedArray α :=
  let (m, region) := m.allocate components.toList
  (m, ⟨components, region⟩)

def readRegion (m : Memory α) (r : Region) (k : Nat) : Checked α := do
  r.check k
  match m.cells[r.start + k]? with
  | some x => .ok x
  | none => .error .outOfBounds

/-- The component of the array at `k`. -/
def read (m : Memory α) (s : Storage α) (k : Nat) : Checked α :=
  match s with
  | .writable r | .readOnly r => m.readRegion r k
  | .computed n generate => if k < n then generate ⟨k, n⟩ else .error (.outsideArray k n)

/-- Puts `x` at a place that was checked before. -/
def put (m : Memory α) (r : Region) (k : Nat) (x : α) : Memory α :=
  { m with cells := m.cells.setIfInBounds (r.start + k) x }

def write (m : Memory α) (r : Region) (k : Nat) (x : α) : Checked (Memory α) := do
  r.check k
  return m.put r k x

/-- A component index has to be made for the array it is used on. -/
def checkIndex (s : Storage α) (k : ComponentIndex) : Checked Unit :=
  if k.count = s.count then .ok () else .error (.foreignIndex k.value k.count s.count)

def component (m : Memory α) (s : Storage α) (k : ComponentIndex) : Checked α := do
  checkIndex s k
  m.read s k.value

def setComponent (m : Memory α) (r : Region) (k : ComponentIndex) (x : α) :
    Checked (Memory α) := do
  checkIndex (.writable r : Storage α) k
  m.write r k.value x

/-- All components in order. -/
def components (m : Memory α) (s : Storage α) : Checked (List α) :=
  (List.range s.count).mapM (m.read s)

end Memory

/-- A view of a stretch of cells that is to have `count` components. -/
def Region.view (start length count : Nat) : Except ArrayError Region :=
  if count = length then .ok ⟨start, count, false⟩ else .error (.length count length)

end TensorCalculus
