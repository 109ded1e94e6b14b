import TensorCalculus.Memory.Basic
import TensorCalculus.Proofs.Checked

/-!
# Ranges of addresses

A range of memory has the addresses from its start up to its stop. The range of an array has the bytes of the
array except the last one of the address space, however far the array would reach beyond it (`has_of_iff`):
neither of the two saturating operations that make its stop leaves out another byte. The ranges of two arrays
overlap exactly if an address is in both (`overlaps_of_iff`).
-/

namespace TensorCalculus.MemoryRange
variable {r s : MemoryRange} {a b byte count countA countB size sizeA sizeB : Nat}

/-- The address is in the range. -/
def Has (r : MemoryRange) (byte : Nat) : Prop := r.start ≤ byte ∧ byte < r.stop

theorem overlaps_eq_true_iff : r.overlaps s = true ↔
    r.start ≠ r.stop ∧ s.start ≠ s.stop ∧ r.start < s.stop ∧ s.start < r.stop := by
  simp [overlaps, isEmpty, and_assoc]

theorem overlaps_of_has (hr : r.Has byte) (hs : s.Has byte) : r.overlaps s = true := by
  unfold Has at hr hs
  rw [overlaps_eq_true_iff]
  omega

theorem overlaps_comm (r s : MemoryRange) : r.overlaps s = s.overlaps r := by
  rw [Bool.eq_iff_iff, overlaps_eq_true_iff, overlaps_eq_true_iff]
  omega

theorem overlaps_of_isEmpty (h : r.isEmpty = true) (s : MemoryRange) : r.overlaps s = false := by
  simp [overlaps, h]

/-! ### The range of an array -/

@[simp] theorem start_of : (of a count size).start = a := by
  unfold of
  split
  · next h => exact h.symm
  · rfl

/-- A product that is no count takes the stop to the end of the address space all the same. -/
theorem stop_of : (of a count size).stop = if a = 0 then 0 else min (a + count * size) Count.largest := by
  unfold of Count.addSaturating Count.mulSaturating
  split
  · rfl
  · show min (a + min (count * size) Count.largest) Count.largest = _
    omega

theorem stop_of_le : (of a count size).stop ≤ Count.largest := by
  rw [stop_of]
  split <;> omega

theorem le_stop_of (h : a ≤ Count.largest) : a ≤ (of a count size).stop := by
  rw [stop_of]
  split <;> omega

theorem has_of_iff : (of a count size).Has byte ↔
    a ≠ 0 ∧ byte < Count.largest ∧ a ≤ byte ∧ byte < a + count * size := by
  rw [Has, start_of, stop_of]
  split <;> omega

/-- If two ranges overlap, the start of the later one is in both. -/
theorem overlaps_of_iff : (of a countA sizeA).overlaps (of b countB sizeB) = true ↔
    ∃ byte, (of a countA sizeA).Has byte ∧ (of b countB sizeB).Has byte := by
  constructor
  · intro h
    simp only [overlaps_eq_true_iff, start_of] at h
    obtain ⟨hneA, hneB, hab, hba⟩ := h
    -- each start is in front of the other stop, so it is an address
    have ha : a ≤ (of a countA sizeA).stop := le_stop_of (Nat.le_trans (Nat.le_of_lt hab) stop_of_le)
    have hb : b ≤ (of b countB sizeB).stop := le_stop_of (Nat.le_trans (Nat.le_of_lt hba) stop_of_le)
    refine ⟨max a b, ?_, ?_⟩ <;> simp only [Has, start_of] <;> omega
  · rintro ⟨byte, ha, hb⟩
    exact overlaps_of_has ha hb

theorem length_of (h : a < Count.limit) : (of a count size).length =
    .ok (if a = 0 then 0 else min (count * size) (Count.largest - a)) := by
  have hle : a ≤ Count.largest := Nat.le_sub_one_of_lt h
  refine Count.sub_eq_ok.2 ⟨by rw [start_of]; exact le_stop_of hle, ?_⟩
  rw [start_of, stop_of]
  split <;> omega

/-- The ranges of two arrays overlap exactly if neither address is null and the arrays have a byte in common that
is not the last of the address space. It does not matter which of two ranges comes first, an empty one overlaps
nothing, and the range of an array at an address has a length. -/
theorem overlaps_iff_common_byte (a countA sizeA b countB sizeB : Nat) :
    ((of a countA sizeA).overlaps (of b countB sizeB) = true ↔ a ≠ 0 ∧ b ≠ 0 ∧
      ∃ x < Count.largest, (a ≤ x ∧ x < a + countA * sizeA) ∧ b ≤ x ∧ x < b + countB * sizeB) ∧
    (∀ r s : MemoryRange, r.overlaps s = s.overlaps r) ∧
    (∀ r s : MemoryRange, r.isEmpty = true → r.overlaps s = false ∧ s.overlaps r = false) ∧
    (a < Count.limit → (of a countA sizeA).length =
      .ok (if a = 0 then 0 else min (countA * sizeA) (Count.largest - a))) := by
  refine ⟨?_, overlaps_comm, fun r s hr => ?_, length_of⟩
  · simp only [overlaps_of_iff, has_of_iff]
    constructor
    · rintro ⟨x, ⟨ha, hlast, hx⟩, hb, -, hx'⟩
      exact ⟨ha, hb, x, hlast, hx, hx'⟩
    · rintro ⟨ha, hb, x, hlast, hx, hx'⟩
      exact ⟨x, ⟨ha, hlast, hx⟩, hb, hlast, hx'⟩
  · exact ⟨overlaps_of_isEmpty hr s, overlaps_comm s r ▸ overlaps_of_isEmpty hr s⟩

/-- An array that would reach far beyond the address space has a byte in common with one that starts at the last
byte but one. It has none with one that starts at the last byte, for the range of that one is empty. -/
theorem overlaps_iff_common_byte_saturated :
    (of 4096 Count.largest 4).overlaps (of (Count.largest - 1) 8 2) = true ∧
    (of Count.largest 8 2).isEmpty = true ∧
    (of 4096 Count.largest 4).overlaps (of Count.largest 8 2) = false ∧
    4096 < Count.limit ∧ (of 4096 Count.largest 4).length = .ok (Count.largest - 4096) := by
  obtain ⟨hshared, -, hempty, hlength⟩ :=
    overlaps_iff_common_byte 4096 Count.largest 4 (Count.largest - 1) 8 2
  have hlast : (of Count.largest 8 2).isEmpty = true := by decide
  exact ⟨hshared.2 ⟨by decide, by decide, Count.largest - 1, by decide, by decide, by decide, by decide⟩,
    hlast, (hempty _ (of 4096 Count.largest 4) hlast).2, by decide, hlength (by decide)⟩

end TensorCalculus.MemoryRange
