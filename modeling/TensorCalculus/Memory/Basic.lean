import TensorCalculus.Count

/-!
# Ranges of memory and what arrays say of themselves

A half-open range of byte addresses. A range that would reach past the last address ends there, and
the null address has no range. An array tells how it is stored and how many bytes it occupies, and an
array that cannot be had is refused.
-/

namespace TensorCalculus

structure MemoryRange where
  start : Nat
  stop : Nat
deriving DecidableEq, Repr

/-- A number in hexadecimal digits. -/
def hexText (n : Nat) : String := "0x" ++ String.ofList (Nat.toDigits 16 n)

namespace MemoryRange

def empty : MemoryRange := ⟨0, 0⟩

/-- The bytes of `count` values of `size` bytes at `address`. -/
def of (address count size : Nat) : MemoryRange :=
  if address = 0 then empty
  else ⟨address, Count.addSaturating address (Count.mulSaturating count size)⟩

def length (r : MemoryRange) : Checked Nat := Count.sub r.stop r.start

def isEmpty (r : MemoryRange) : Bool := r.start == r.stop

/-- Whether the ranges have a byte in common. -/
def overlaps (r s : MemoryRange) : Bool :=
  !r.isEmpty && !s.isEmpty && r.start < s.stop && s.start < r.stop

def text (r : MemoryRange) : String := s!"[{hexText r.start}, {hexText r.stop})"

end MemoryRange

/-! ### What an array says of itself -/

inductive Qualifier where
  | procedural
  | constMemory
  | nonconstMemory
deriving DecidableEq, Repr

def Qualifier.name : Qualifier → String
  | .procedural => "Procedural"
  | .constMemory => "ConstMemory"
  | .nonconstMemory => "NonconstMemory"

structure ArrayInfo where
  qualifier : Qualifier
  count : Nat
  /-- The number of bytes it occupies. -/
  bytes : Nat
  /-- Whether it has no address. -/
  isNull : Bool
deriving DecidableEq, Repr

/-! ### Refusals -/

inductive ArrayError where
  | nullPointer
  | misaligned (address align : Nat)
  | length (expected actual : Nat)
  | copyRange (sourceOffset sourceCount targetOffset targetCount count : Nat)
deriving DecidableEq, Repr

/-- The kind of a refusal. -/
def ArrayError.name : ArrayError → String
  | .nullPointer => "NullPointer"
  | .misaligned .. => "Misaligned"
  | .length .. => "Length"
  | .copyRange .. => "CopyRange"

def ArrayError.message : ArrayError → String
  | .nullPointer => "array pointer is null"
  | .misaligned address align =>
    s!"array pointer {hexText address} is not aligned to {align} bytes"
  | .length expected actual =>
    s!"array of {expected} components cannot be built on {actual} elements"
  | .copyRange sourceOffset sourceCount targetOffset targetCount count =>
    s!"copy of {count} components from offset {sourceOffset} (of {sourceCount}) to offset " ++
      s!"{targetOffset} (of {targetCount}) is out of range"

end TensorCalculus
