import TensorCalculus.Memory.Basic

/-!
# Arrays at an address

An array given by the address of its first component. Unless the check is waived, the address has to
be set and aligned to the size of a component.
-/

namespace TensorCalculus

structure Pointer where
  address : Nat
  count : Nat
  /-- The number of bytes of a component. -/
  size : Nat
  readOnly : Bool
deriving DecidableEq, Repr

namespace Pointer

def of (address count size : Nat) (readOnly checked : Bool) : Except ArrayError Pointer := do
  if checked then
    if address = 0 then throw .nullPointer
    if address % size ≠ 0 then throw (.misaligned address size)
  return ⟨address, count, size, readOnly⟩

def range (p : Pointer) : MemoryRange := .of p.address p.count p.size

def info (p : Pointer) : Checked ArrayInfo := do
  let qualifier : Qualifier := if p.readOnly then .constMemory else .nonconstMemory
  return ⟨qualifier, p.count, ← p.range.length, p.address == 0⟩

def debugText (p : Pointer) : String :=
  let name := if p.readOnly then "ConstPreallocatedArray" else "PreallocatedArray"
  name ++ s!" \x7b ptr: {hexText p.address}, count: {p.count} \x7d"

end Pointer

end TensorCalculus
