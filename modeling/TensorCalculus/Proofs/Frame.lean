import Mathlib.Tactic.Ring
import TensorCalculus.Expr.Component
import TensorCalculus.Proofs.AddressRange

/-!
# What an expression reads

An expression whose memory does not overlap that of a region has the same components whatever the
cells of the region hold (`Expr.component_congr`). This is so in a memory that fits into the address
space: there a cell that belongs to two regions lies in the byte ranges of both
(`Memory.overlaps_of_has`). New cells come behind the ones that are there: what is there is read as before
(`Memory.Within.readRegion_eq`), and the array in the new cells overlaps none of it (`Memory.overlaps_own`).
-/

namespace TensorCalculus

/-- The cell is one of the region's. -/
def Region.Has (r : Region) (cell : Nat) : Prop := r.start ≤ cell ∧ cell < r.start + r.count

namespace Memory
variable {α : Type} {m m' m₁ : Memory α} {r : Region}

theorem readRegion_eq_ok {k : Nat} {x : α} :
    m.readRegion r k = .ok x ↔ k < r.count ∧ m.cells[r.start + k]? = some x := by
  unfold readRegion Region.check
  by_cases hk : k < r.count
  · rw [if_pos hk, ok_bind]
    cases hcell : m.cells[r.start + k]? <;> simp [hk]
  · rw [if_neg hk]
    exact ⟨nofun, fun h => absurd h.1 hk⟩

theorem readRegion_congr (h : ∀ k < r.count, m'.cells[r.start + k]? = m.cells[r.start + k]?) :
    m'.readRegion r = m.readRegion r := by
  funext k
  by_cases hk : k < r.count
  · rw [readRegion, readRegion, h k hk]
  · rw [readRegion, readRegion, Region.check, if_neg hk]
    rfl

theorem readRegion_ok {k : Nat} (hr : r.start + r.count ≤ m.cells.size) (hk : k < r.count) :
    ∃ x, m.readRegion r k = .ok x :=
  ⟨m.cells[r.start + k], readRegion_eq_ok.2 ⟨hk, Array.getElem?_eq_getElem (by omega)⟩⟩

theorem getElem?_put_ne {k cell : Nat} (hne : cell ≠ r.start + k) (x : α) :
    (m.put r k x).cells[cell]? = m.cells[cell]? :=
  Array.getElem?_setIfInBounds_ne hne.symm

theorem readRegion_put_ne {j k : Nat} (hne : j ≠ k) (x : α) :
    (m.put r k x).readRegion r j = m.readRegion r j := by
  rw [readRegion, readRegion, getElem?_put_ne (by omega)]

theorem readRegion_put_self {k : Nat} {old : α} (h : m.readRegion r k = .ok old) (x : α) :
    (m.put r k x).readRegion r k = .ok x := by
  obtain ⟨hk, hcell⟩ := readRegion_eq_ok.1 h
  have hlt : r.start + k < m.cells.size := (Array.getElem?_eq_some_iff.1 hcell).1
  exact readRegion_eq_ok.2 ⟨hk, Array.getElem?_setIfInBounds_self_of_lt hlt⟩

/-- A cell takes room, and the last cell ends at an address. -/
structure Addressable (m : Memory α) : Prop where
  width_pos : 0 < m.width
  fits : m.address m.cells.size ≤ Count.largest

theorem Addressable.count_lt (hm : m.Addressable) (hr : r.start + r.count ≤ m.cells.size) :
    r.count < Count.limit := by
  have hlast : m.cells.size + 1 ≤ m.address m.cells.size := Nat.le_mul_of_pos_left _ hm.width_pos
  have hfits : m.address m.cells.size ≤ Count.largest := hm.fits
  have hlargest : Count.largest < Count.limit := by decide
  omega

theorem address_mono {cell cell' : Nat} (h : cell ≤ cell') : m.address cell ≤ m.address cell' :=
  Nat.mul_le_mul_left m.width (Nat.succ_le_succ h)

theorem address_lt_address (hm : 0 < m.width) {cell cell' : Nat} (h : cell < cell') :
    m.address cell < m.address cell' :=
  Nat.mul_lt_mul_of_pos_left (Nat.succ_lt_succ h) hm

theorem address_add (cell count : Nat) : m.address (cell + count) = m.address cell + count * m.width := by
  unfold address
  ring

/-- The range of a region has the bytes of its cells that are in the address space. -/
theorem has_regionRange_iff (hm : 0 < m.width) {byte : Nat} : (m.regionRange r).Has byte ↔
    byte < Count.largest ∧ m.address r.start ≤ byte ∧ byte < m.address (r.start + r.count) := by
  have hpos : m.address r.start ≠ 0 := (Nat.mul_pos hm (Nat.succ_pos _)).ne'
  rw [regionRange, MemoryRange.has_of_iff, address_add]
  exact and_iff_right hpos

/-- The address of a cell is in the range of each region that has the cell. -/
theorem has_regionRange_address (hm : m.Addressable) {cell : Nat} (hcell : cell < m.cells.size)
    (hr : r.Has cell) : (m.regionRange r).Has (m.address cell) := by
  have hlargest : m.address cell < Count.largest :=
    Nat.lt_of_lt_of_le (address_lt_address hm.width_pos hcell) hm.fits
  exact (has_regionRange_iff hm.width_pos).2
    ⟨hlargest, address_mono hr.1, address_lt_address hm.width_pos hr.2⟩

theorem overlaps_of_has (hm : m.Addressable) {s : Region} {cell : Nat} (hcell : cell < m.cells.size)
    (hr : r.Has cell) (hs : s.Has cell) : (m.regionRange r).overlaps (m.regionRange s) = true :=
  MemoryRange.overlaps_of_has (has_regionRange_address hm hcell hr) (has_regionRange_address hm hcell hs)

/-- The memories differ at most in the cells of the region. -/
structure SameOutside (r : Region) (m m' : Memory α) : Prop where
  width_eq : m'.width = m.width
  size_eq : m'.cells.size = m.cells.size
  cell_eq : ∀ cell, ¬ r.Has cell → m'.cells[cell]? = m.cells[cell]?

theorem SameOutside.refl (r : Region) (m : Memory α) : m.SameOutside r m := ⟨rfl, rfl, fun _ _ => rfl⟩

theorem SameOutside.trans (h : m.SameOutside r m₁) (h' : m₁.SameOutside r m') : m.SameOutside r m' :=
  ⟨h'.width_eq.trans h.width_eq, h'.size_eq.trans h.size_eq,
    fun cell hcell => (h'.cell_eq cell hcell).trans (h.cell_eq cell hcell)⟩

theorem sameOutside_put {k : Nat} (hk : k < r.count) (x : α) : m.SameOutside r (m.put r k x) := by
  refine ⟨rfl, Array.size_setIfInBounds, fun cell hcell => getElem?_put_ne ?_ x⟩
  rintro rfl
  exact hcell ⟨by omega, by omega⟩

theorem SameOutside.readRegion_eq {s : Region} {k : Nat} (h : m.SameOutside r m') (hk : ¬r.Has (s.start + k)) :
    m'.readRegion s k = m.readRegion s k := by
  rw [readRegion, readRegion, h.cell_eq _ hk]

/-- An array that does not overlap the region is read as before. -/
theorem read_congr (hm : m.Addressable) (hr : r.start + r.count ≤ m.cells.size)
    (h : m.SameOutside r m') {s : Storage α} (hoverlap : (m.range s).overlaps (m.regionRange r) = false) :
    m'.read s = m.read s := by
  have hregion : ∀ own : Region, (m.regionRange own).overlaps (m.regionRange r) = false →
      m'.readRegion own = m.readRegion own := by
    intro own hown
    refine readRegion_congr fun k hk => h.cell_eq _ fun hhas => ?_
    have hsize : own.start + k < m.cells.size := Nat.lt_of_lt_of_le hhas.2 hr
    have := overlaps_of_has hm hsize (r := own) ⟨by omega, by omega⟩ hhas
    rw [hown] at this
    cases this
  cases s with
  | writable own => exact hregion own hoverlap
  | readOnly own => exact hregion own hoverlap
  | computed n generate => rfl

/-! ### New cells -/

/-- The cells of `m` are in `m'`, and hold the same. -/
structure Within (m m' : Memory α) : Prop where
  width_eq : m'.width = m.width
  size_le : m.cells.size ≤ m'.cells.size
  cell_eq : ∀ cell < m.cells.size, m'.cells[cell]? = m.cells[cell]?

theorem Within.refl (m : Memory α) : m.Within m := ⟨rfl, Nat.le_refl _, fun _ _ => rfl⟩

theorem Within.trans (h : m.Within m₁) (h' : m₁.Within m') : m.Within m' :=
  ⟨h'.width_eq.trans h.width_eq, Nat.le_trans h.size_le h'.size_le, fun cell hcell =>
    (h'.cell_eq cell (Nat.lt_of_lt_of_le hcell h.size_le)).trans (h.cell_eq cell hcell)⟩

theorem cells_own (m : Memory α) (xs : Array α) : (m.own xs).1.cells = m.cells ++ xs :=
  Array.ext' (by simp [own, allocate])

theorem within_own (m : Memory α) (xs : Array α) : m.Within (m.own xs).1 := by
  refine ⟨rfl, ?_, fun cell hcell => ?_⟩
  · rw [cells_own, Array.size_append]
    exact Nat.le_add_right _ _
  · rw [cells_own, Array.getElem?_append_left hcell]

theorem Within.readRegion_eq (h : m.Within m') (hr : r.start + r.count ≤ m.cells.size) :
    m'.readRegion r = m.readRegion r :=
  readRegion_congr fun k hk => h.cell_eq _ (by omega)

/-- The new cells stay the same when something else is written. -/
theorem put_own {k : Nat} (hk : r.start + k < m.cells.size) (x : α) (xs : Array α) :
    (m.own xs).1.put r k x = ((m.put r k x).own xs).1 := by
  have hcells : ((m.own xs).1.put r k x).cells = ((m.put r k x).own xs).1.cells := by
    rw [cells_own, put, put, cells_own]
    exact Array.setIfInBounds_append_left hk
  exact congrArg (Memory.mk m.width) hcells

/-- The range of a region stops where that of the cells behind it starts, at the latest. -/
theorem stop_regionRange_le {s : Region} (h : r.start + r.count ≤ s.start) :
    (m.regionRange r).stop ≤ (m.regionRange s).start := by
  have hle : m.address (r.start + r.count) ≤ m.address s.start := address_mono h
  rw [regionRange, regionRange, MemoryRange.start_of, MemoryRange.stop_of, ← address_add]
  split <;> omega

theorem overlaps_own (hr : r.start + r.count ≤ m.cells.size) (xs : Array α) :
    ((m.own xs).1.regionRange (m.own xs).2.region).overlaps ((m.own xs).1.regionRange r) = false := by
  have hstop : ((m.own xs).1.regionRange r).stop ≤ ((m.own xs).1.regionRange (m.own xs).2.region).start :=
    stop_regionRange_le hr
  rw [← Bool.not_eq_true, MemoryRange.overlaps_eq_true_iff]
  omega

end Memory

/-- The components of an expression do not depend on the cells of a region that it does not overlap. -/
theorem Expr.component_congr {α : Type} [Scalar α] {m m' : Memory α} {r : Region} (hm : m.Addressable)
    (hr : r.start + r.count ≤ m.cells.size) (h : m.SameOutside r m') {e : Expr α}
    (hoverlap : e.overlaps m (m.regionRange r) = false) : e.component m' = e.component m := by
  induction e with
  | leaf plan =>
    have hread : m'.read plan.storage = m.read plan.storage := Memory.read_congr hm hr h hoverlap
    funext values
    simp only [component, Leaf.component, hread]
  | evaluated free array =>
    funext values
    rfl
  | sum op left right plan ihl ihr =>
    rw [overlaps, Bool.or_eq_false_iff] at hoverlap
    funext values
    simp only [component, ihl hoverlap.1, ihr hoverlap.2]
  | scaled op inner scalar ih =>
    funext values
    simp only [component, ih hoverlap]
  | product left right plan ihl ihr =>
    rw [overlaps, Bool.or_eq_false_iff] at hoverlap
    funext values
    simp only [component, ihl hoverlap.1, ihr hoverlap.2]
  | bundle inner plan ih | split inner plan ih | embed inner plan ih | coembed inner plan ih =>
    funext values
    simp only [component, ih hoverlap]

end TensorCalculus
