import TensorCalculus.Memory.Copy
import TensorCalculus.Proofs.Frame

/-!
# A copy moves a block

The copy loop goes component by component from the front, and its two arrays may share cells. Its invariant is
that the components copied so far are those of the memory at the start and that nothing else has changed
(`Memory.CopiedUpTo`). One step keeps it as long as the cell to be read has not been written
(`Memory.CopiedUpTo.step`), which is so if the blocks have no cell in common or the target block does not
start after the source block (`Region.CopiesTo`).
-/

namespace TensorCalculus

/-! ### Blocks -/

/-- The cells of `count` components from `offset` on. -/
def Region.block (r : Region) (offset count : Nat) : Region := ⟨r.start + offset, count, r.isOwned⟩

/-- The blocks have no cell in common, or the target does not start after the source. -/
def Region.CopiesTo (source target : Region) : Prop :=
  (∀ cell, ¬(source.Has cell ∧ target.Has cell)) ∨ target.start ≤ source.start

/-- The cell that is read next has not been written. -/
theorem Region.CopiesTo.not_has {r target : Region} {sourceOffset targetOffset count k : Nat}
    (h : (r.block sourceOffset count).CopiesTo (target.block targetOffset count)) (hk : k < count) :
    ¬(target.block targetOffset k).Has (r.start + (sourceOffset + k)) := by
  rintro ⟨hle, hlt⟩
  have hle : target.start + targetOffset ≤ r.start + (sourceOffset + k) := hle
  have hlt : r.start + (sourceOffset + k) < target.start + targetOffset + k := hlt
  rcases h with hdisjoint | hstart
  · refine hdisjoint (r.start + (sourceOffset + k)) ⟨⟨?_, ?_⟩, ?_, ?_⟩ <;> simp only [block] <;> omega
  · have hstart : target.start + targetOffset ≤ r.start + sourceOffset := hstart
    omega

namespace Memory
variable {α : Type} {m m' : Memory α} {source : Storage α} {target : Region}
  {sourceOffset targetOffset count k : Nat}

theorem SameOutside.put {n : Nat} (h : m.SameOutside (target.block targetOffset n) m') (x : α) :
    m.SameOutside (target.block targetOffset (n + 1)) (m'.put target (targetOffset + n) x) := by
  refine ⟨h.width_eq, Array.size_setIfInBounds.trans h.size_eq, fun cell hcell => ?_⟩
  simp only [Region.Has, Region.block] at hcell
  rw [getElem?_put_ne (by omega)]
  refine h.cell_eq cell fun hhas => ?_
  simp only [Region.Has, Region.block] at hhas
  omega

/-- An array in memory has all its components. One that computes them may have some of them only. -/
theorem read_block (hin : ∀ r, source.region? = some r → r.start + r.count ≤ m.cells.size)
    (hfits : sourceOffset + count ≤ source.count)
    (hcomputed : source.region? = none → ∀ k < count, ∃ x, m.read source (sourceOffset + k) = .ok x) :
    ∀ k < count, ∃ x, m.read source (sourceOffset + k) = .ok x := by
  intro k hk
  have hlt : sourceOffset + k < source.count := by omega
  cases source with
  | writable r | readOnly r => exact readRegion_ok (hin r rfl) hlt
  | computed n generate => exact hcomputed rfl k hk

/-! ### The loop -/

/-- The first `k` components have been copied as they were in `m`, and nothing else has changed. -/
structure CopiedUpTo (source : Storage α) (target : Region) (sourceOffset targetOffset : Nat) (m : Memory α)
    (k : Nat) (m' : Memory α) : Prop where
  same : m.SameOutside (target.block targetOffset k) m'
  moved : ∀ j < k, ∃ x, m.read source (sourceOffset + j) = .ok x ∧
    m'.readRegion target (targetOffset + j) = .ok x

/-- A block of readable components that fits into the target and is read ahead of what is written. -/
structure Copyable (m : Memory α) (source : Storage α) (target : Region)
    (sourceOffset targetOffset count : Nat) : Prop where
  source_le : sourceOffset + count ≤ Count.limit
  target_le : targetOffset + count ≤ Count.limit
  fits : targetOffset + count ≤ target.count
  inMemory : target.start + target.count ≤ m.cells.size
  reads : ∀ k < count, ∃ x, m.read source (sourceOffset + k) = .ok x
  ahead : ∀ r, source.region? = some r →
    (r.block sourceOffset count).CopiesTo (target.block targetOffset count)

theorem copiedUpTo_zero (source : Storage α) (target : Region) (sourceOffset targetOffset : Nat)
    (m : Memory α) : CopiedUpTo source target sourceOffset targetOffset m 0 m :=
  ⟨.refl _ _, fun _ hj => absurd hj (Nat.not_lt_zero _)⟩

namespace CopiedUpTo

/-- The next component is still what it was at the start. -/
theorem read_next (h : CopiedUpTo source target sourceOffset targetOffset m k m')
    (hcopyable : Copyable m source target sourceOffset targetOffset count) (hk : k < count) :
    m'.read source (sourceOffset + k) = m.read source (sourceOffset + k) := by
  cases source with
  | writable r | readOnly r => exact h.same.readRegion_eq ((hcopyable.ahead r rfl).not_has hk)
  | computed n generate => rfl

theorem copied_next (h : CopiedUpTo source target sourceOffset targetOffset m k m')
    (hcopyable : Copyable m source target sourceOffset targetOffset count) (hk : k < count) {x : α}
    (hx : m.read source (sourceOffset + k) = .ok x) :
    copied source target sourceOffset targetOffset k m' = .ok (targetOffset + k, x) := by
  have hsource := hcopyable.source_le
  have htarget := hcopyable.target_le
  have hfits := hcopyable.fits
  rw [copied, Count.add_of_lt (by omega), ok_bind, Count.add_of_lt (by omega), ok_bind,
    h.read_next hcopyable hk, hx, ok_bind, Region.check, if_pos (by omega)]
  rfl

theorem step (h : CopiedUpTo source target sourceOffset targetOffset m k m')
    (hcopyable : Copyable m source target sourceOffset targetOffset count) (hk : k < count) {x : α}
    (hx : m.read source (sourceOffset + k) = .ok x) :
    CopiedUpTo source target sourceOffset targetOffset m (k + 1) (m'.put target (targetOffset + k) x) := by
  refine ⟨h.same.put x, fun j hj => ?_⟩
  by_cases hjk : j = k
  · subst hjk
    have hfits := hcopyable.fits
    have hin : target.start + target.count ≤ m'.cells.size := h.same.size_eq ▸ hcopyable.inMemory
    obtain ⟨old, hold⟩ := readRegion_ok hin (show targetOffset + j < target.count by omega)
    exact ⟨x, hx, readRegion_put_self hold x⟩
  · obtain ⟨y, hy, hmoved⟩ := h.moved j (by omega)
    exact ⟨y, hy, (readRegion_put_ne (by omega) x).trans hmoved⟩

/-- The rest of the loop runs to its end. -/
theorem copyFrom_eq {n : Nat} (h : CopiedUpTo source target sourceOffset targetOffset m k m')
    (hcopyable : Copyable m source target sourceOffset targetOffset count) (hn : k + n = count) :
    ∃ last, copyFrom source target sourceOffset targetOffset n k m' = (last, none) ∧
      CopiedUpTo source target sourceOffset targetOffset m count last := by
  induction n generalizing k m' with
  | zero =>
    obtain rfl : k = count := hn
    exact ⟨m', rfl, h⟩
  | succ n ih =>
    have hk : k < count := by omega
    obtain ⟨x, hx⟩ := hcopyable.reads k hk
    rw [copyFrom, h.copied_next hcopyable hk hx]
    exact ih (h.step hcopyable hk hx) (by omega)

end CopiedUpTo

/-! ### The whole copy -/

/-- The test on counts is that on natural numbers, as the size of an array is a count. -/
theorem exceeds_iff {offset total : Nat} (h : total < Count.limit) :
    exceeds offset count total = true ↔ total < offset + count := by
  unfold exceeds
  by_cases hlt : offset + count < Count.limit
  · rw [Count.add_of_lt hlt]
    exact decide_eq_true_iff
  · have herror : Count.add offset count = .error .overflow := if_neg hlt
    rw [herror]
    simp only [true_iff]
    omega

section Checked
variable (hsource : source.count < Count.limit) (htarget : target.count < Count.limit)
include hsource htarget

theorem exceeds_either_iff : (true && (exceeds sourceOffset count source.count ||
      exceeds targetOffset count target.count)) = true ↔
    source.count < sourceOffset + count ∨ target.count < targetOffset + count := by
  rw [Bool.true_and, Bool.or_eq_true, exceeds_iff hsource, exceeds_iff htarget]

theorem copy_of_exceeds (m : Memory α)
    (h : source.count < sourceOffset + count ∨ target.count < targetOffset + count) :
    copy source target sourceOffset targetOffset count true m =
      (m, .refuse (.copyRange sourceOffset source.count targetOffset target.count count)) :=
  if_pos ((exceeds_either_iff hsource htarget).2 h)

theorem exceeds_of_refused {e : ArrayError}
    (h : (copy source target sourceOffset targetOffset count true m).2 = .refuse e) :
    source.count < sourceOffset + count ∨ target.count < targetOffset + count := by
  by_contra hfits
  rw [copy, if_neg (mt (exceeds_either_iff hsource htarget).1 hfits)] at h
  split at h <;> cases h

theorem copy_of_copyFrom (h : sourceOffset + count ≤ source.count) (h' : targetOffset + count ≤ target.count)
    (hrun : copyFrom source target sourceOffset targetOffset count 0 m = (m', none)) :
    copy source target sourceOffset targetOffset count true m = (m', .ok ()) := by
  rw [copy, if_neg (mt (exceeds_either_iff hsource htarget).1 (by omega)), hrun]

end Checked

/-- A checked copy is refused exactly if it reaches past an array, and then nothing changes. Otherwise, if the
two blocks have no cell in common or the target block does not start after the source block, each component
is what the source had before, and no other cell changes. -/
theorem copy_moves_block (sourceOffset targetOffset count : Nat)
    (hsource : source.count < Count.limit) (htarget : target.count < Count.limit)
    (hsourceIn : ∀ r, source.region? = some r → r.start + r.count ≤ m.cells.size)
    (htargetIn : target.start + target.count ≤ m.cells.size) :
    ((∃ e, (copy source target sourceOffset targetOffset count true m).2 = .refuse e) ↔
      source.count < sourceOffset + count ∨ target.count < targetOffset + count) ∧
    (source.count < sourceOffset + count ∨ target.count < targetOffset + count →
      copy source target sourceOffset targetOffset count true m =
        (m, .refuse (.copyRange sourceOffset source.count targetOffset target.count count))) ∧
    (sourceOffset + count ≤ source.count → targetOffset + count ≤ target.count →
      (source.region? = none → ∀ k < count, ∃ x, m.read source (sourceOffset + k) = .ok x) →
      (∀ r, source.region? = some r →
        (r.block sourceOffset count).CopiesTo (target.block targetOffset count)) →
      ∃ m', copy source target sourceOffset targetOffset count true m = (m', .ok ()) ∧
        (∀ k < count, ∃ x, m.read source (sourceOffset + k) = .ok x ∧
          m'.readRegion target (targetOffset + k) = .ok x) ∧
        m.SameOutside (target.block targetOffset count) m') := by
  refine ⟨⟨fun ⟨e, he⟩ => exceeds_of_refused hsource htarget he,
    fun h => ⟨_, congrArg Prod.snd (copy_of_exceeds hsource htarget m h)⟩⟩,
    copy_of_exceeds hsource htarget m, fun hsourceFits htargetFits hcomputed hahead => ?_⟩
  have hcopyable : Copyable m source target sourceOffset targetOffset count :=
    ⟨by omega, by omega, htargetFits, htargetIn, read_block hsourceIn hsourceFits hcomputed, hahead⟩
  obtain ⟨last, hlast, hcopied⟩ :=
    (copiedUpTo_zero source target sourceOffset targetOffset m).copyFrom_eq hcopyable (Nat.zero_add count)
  exact ⟨last, copy_of_copyFrom hsource htarget hsourceFits htargetFits hlast, hcopied.moved, hcopied.same⟩

/-- Two views of one buffer overlap in all but one cell, and the whole source view is moved down by one. -/
theorem copy_moves_block_down :
    let m : Memory Nat := ⟨8, #[1, 2, 3, 4, 5]⟩
    let source : Storage Nat := .readOnly ⟨1, 4, false⟩
    let target : Region := ⟨0, 4, false⟩
    source.count < Count.limit ∧ target.count < Count.limit ∧
    (∀ r, source.region? = some r → r.start + r.count ≤ m.cells.size) ∧
    target.start + target.count ≤ m.cells.size ∧
    (∀ r, source.region? = some r → (r.block 0 4).CopiesTo (target.block 0 4)) ∧
    ∃ m', copy source target 0 0 4 true m = (m', .ok ()) ∧ m'.readRegion target 3 = .ok 5 ∧
      m'.cells[4]? = some 5 := by
  intro m source target
  have hsource : source.count < Count.limit := by decide
  have htarget : target.count < Count.limit := by decide
  have hregion : ∀ r, source.region? = some r → r = ⟨1, 4, false⟩ := fun r hr => (Option.some.inj hr).symm
  have hsourceIn : ∀ r, source.region? = some r → r.start + r.count ≤ m.cells.size := by
    intro r hr
    rw [hregion r hr]
    decide
  have htargetIn : target.start + target.count ≤ m.cells.size := by decide
  have hahead : ∀ r, source.region? = some r → (r.block 0 4).CopiesTo (target.block 0 4) := by
    intro r hr
    rw [hregion r hr]
    exact .inr (by decide)
  obtain ⟨-, -, hmoves⟩ := copy_moves_block 0 0 4 hsource htarget hsourceIn htargetIn
  obtain ⟨m', hcopy, hmoved, hsame⟩ := hmoves (by decide) (by decide) (fun h => by cases h) hahead
  obtain ⟨x, hx, hread⟩ := hmoved 3 (by decide)
  obtain rfl : 5 = x := Except.ok.inj hx
  refine ⟨hsource, htarget, hsourceIn, htargetIn, hahead, m', hcopy, hread, ?_⟩
  exact hsame.cell_eq 4 (fun h => absurd h.2 (by decide))

/-- If the target starts inside the source, a component is overwritten before it is read. -/
example : (copy (.readOnly ⟨0, 3, false⟩) ⟨1, 2, false⟩ 0 0 2 true ⟨8, #[1, 2, 3]⟩ : Memory Nat × _).1.cells =
    #[1, 1, 1] := by decide

end Memory

end TensorCalculus
