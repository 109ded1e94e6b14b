import TensorCalculus.Proofs.Acceptance
import TensorCalculus.Proofs.Assignment
import TensorCalculus.Proofs.Safety

/-!
# Which assignments are accepted

An assignment first compares the free indices of its two sides. If they have different symbols, or a symbol
stands for different factors, it is refused (`matchFree_unmatched`, `matchFree_mismatch`). Otherwise the
positions that it works out are a permutation (`matchFree_permutes`). It is then refused if an array of
the right-hand side has a byte in common with the target: the ranges of two arrays overlap exactly if they
have (`Memory.overlaps_iff`), and the test goes through all arrays of the expression
(`Expr.overlaps_iff`). Nothing else is refused (`Target.update_ok`), and a refusal writes nothing
(`Target.update_accepts`).
-/

namespace TensorCalculus

/-! ### Bytes in common -/

namespace Memory
variable {α : Type} {m : Memory α} {r s : Region} {byte : Nat}

/-- The byte belongs to a cell of the region. -/
def HasByte (m : Memory α) (r : Region) (byte : Nat) : Prop :=
  ∃ cell, r.Has cell ∧ m.address cell ≤ byte ∧ byte < m.address (cell + 1)

/-- The byte belongs to a cell of the array. -/
def Occupies (m : Memory α) (a : Storage α) (byte : Nat) : Prop := ∃ r, a.region? = some r ∧ m.HasByte r byte

theorem hasByte_iff (hm : 0 < m.width) :
    m.HasByte r byte ↔ m.address r.start ≤ byte ∧ byte < m.address (r.start + r.count) := by
  constructor
  · rintro ⟨cell, ⟨hstart, hstop⟩, hle, hlt⟩
    exact ⟨(address_mono hstart).trans hle, hlt.trans_le (address_mono hstop)⟩
  · rintro ⟨hle, hlt⟩
    have hstart : r.start + 1 ≤ byte / m.width := (Nat.le_div_iff_mul_le hm).2 (Nat.mul_comm m.width _ ▸ hle)
    have hstop : byte / m.width < r.start + r.count + 1 := Nat.div_lt_of_lt_mul hlt
    have hcell : byte / m.width - 1 + 1 = byte / m.width := by omega
    refine ⟨byte / m.width - 1, ⟨by omega, by omega⟩, ?_, ?_⟩
    · rw [address, hcell]
      exact Nat.mul_div_le byte m.width
    · rw [address, hcell]
      exact Nat.lt_mul_div_succ byte hm

/-- A region that lies in memory has a byte in common with another exactly if their ranges overlap. -/
theorem overlaps_iff (hm : m.Addressable) (hs : s.start + s.count ≤ m.cells.size) :
    (m.regionRange r).overlaps (m.regionRange s) = true ↔ ∃ byte, m.HasByte r byte ∧ m.HasByte s byte := by
  have hlast : m.address (s.start + s.count) ≤ Count.largest := (address_mono hs).trans hm.fits
  refine MemoryRange.overlaps_of_iff.trans ?_
  show (∃ byte, (m.regionRange r).Has byte ∧ (m.regionRange s).Has byte) ↔ _
  simp only [hasByte_iff hm.width_pos, has_regionRange_iff hm.width_pos]
  constructor
  · rintro ⟨byte, ⟨-, hbyte⟩, -, hbyte'⟩
    exact ⟨byte, hbyte, hbyte'⟩
  · rintro ⟨byte, hbyte, hbyte'⟩
    have hlargest : byte < Count.largest := hbyte'.2.trans_le hlast
    exact ⟨byte, ⟨hlargest, hbyte⟩, hlargest, hbyte'⟩

theorem overlaps_range_iff (hm : m.Addressable) (hs : s.start + s.count ≤ m.cells.size) {a : Storage α} :
    (m.range a).overlaps (m.regionRange s) = true ↔ ∃ byte, m.Occupies a byte ∧ m.HasByte s byte := by
  unfold range Occupies
  cases a.region? with
  | none => simp [MemoryRange.overlaps, MemoryRange.isEmpty, MemoryRange.empty]
  | some r => simpa using overlaps_iff hm hs

end Memory

/-- The arrays that the expression reads, those of evaluated components among them. -/
def Expr.arrays {α : Type} : Expr α → List (Storage α)
  | .leaf plan => [plan.storage]
  | .evaluated _ array => [.readOnly array.region]
  | .sum _ left right _ => left.arrays ++ right.arrays
  | .scaled _ inner _ => inner.arrays
  | .product left right _ => left.arrays ++ right.arrays
  | .bundle inner _ => inner.arrays
  | .split inner _ => inner.arrays
  | .embed inner _ => inner.arrays
  | .coembed inner _ => inner.arrays

theorem Expr.overlaps_iff {α : Type} {m : Memory α} {e : Expr α} {range : MemoryRange} :
    e.overlaps m range = true ↔ ∃ a ∈ e.arrays, (m.range a).overlaps range = true := by
  induction e with
  | leaf plan => simp [overlaps, arrays]
  | evaluated free array => simp [overlaps, arrays, Memory.range, Storage.region?]
  | sum op left right plan ihl ihr => simp [overlaps, arrays, ihl, ihr, or_and_right, exists_or]
  | scaled op inner scalar ih => exact ih
  | product left right plan ihl ihr => simp [overlaps, arrays, ihl, ihr, or_and_right, exists_or]
  | bundle inner plan ih | split inner plan ih | embed inner plan ih | coembed inner plan ih => exact ih

/-! ### Free indices that match -/

/-- The lists have the same symbols. -/
def SameSymbols (bs cs : List BoundIndex) : Prop := ∀ i, i ∈ symbols bs ↔ i ∈ symbols cs

/-- A symbol of both lists stands for the same factor. -/
def SameFactors (bs cs : List BoundIndex) : Prop := ∀ b ∈ bs, ∀ c ∈ cs, b.index = c.index → b.factor = c.factor

section Matching
variable {bs cs : List BoundIndex} {b c : BoundIndex}

theorem SameSymbols.of_perm (h : bs.Perm cs) : SameSymbols bs cs := fun _ => (h.map BoundIndex.index).mem_iff

theorem SameFactors.of_perm (hbs : (symbols bs).Nodup) (h : bs.Perm cs) : SameFactors bs cs := by
  intro b hb c hc hindex
  rw [List.inj_on_of_nodup_map hbs hb (h.mem_iff.2 hc) hindex]

theorem Occurrence.sameElements_iff {xs ys : List Index} :
    Occurrence.sameElements xs ys = true ↔ ∀ i, i ∈ xs ↔ i ∈ ys := by
  simp only [Occurrence.sameElements, Bool.and_eq_true, List.all_eq_true, List.contains_iff_mem]
  exact ⟨fun h i => ⟨h.1 i, h.2 i⟩, fun h => ⟨fun i => (h i).1, fun i => (h i).2⟩⟩

theorem matchFree_unmatched (h : ¬SameSymbols bs cs) :
    matchFree bs cs = .error (.unmatchedFree (symbols bs) (symbols cs)) := by
  have hdiffer : Occurrence.sameElements (symbols bs) (symbols cs) = false :=
    Bool.eq_false_iff.2 fun hsame => h (Occurrence.sameElements_iff.1 hsame)
  rw [matchFree, if_pos (by simp [hdiffer])]

/-- Lists of distinct symbols that are the same as sets have the same length. -/
theorem matchFree_of_sameSymbols (hbs : (symbols bs).Nodup) (hcs : (symbols cs).Nodup)
    (h : SameSymbols bs cs) : matchFree bs cs = cs.mapM (matchOne bs cs) := by
  have hlength : bs.length = cs.length := by
    rw [← length_symbols, ← length_symbols, ((List.perm_ext_iff_of_nodup hbs hcs).2 h).length_eq]
  rw [matchFree, if_neg (by simp [hlength, Occurrence.sameElements_iff.2 h])]

/-- The first index over another factor is what the refusal is about. -/
theorem matchFree_mismatch (hbs : (symbols bs).Nodup) (hcs : (symbols cs).Nodup) (hsymbols : SameSymbols bs cs)
    (h : ¬SameFactors bs cs) : ∃ before c after b, cs = before ++ c :: after ∧ SameFactors bs before ∧ b ∈ bs ∧
      b.index = c.index ∧ b.factor ≠ c.factor ∧
      matchFree bs cs = .error (.factorMismatch c.index b.factor c.factor) := by
  have hsome : ∃ c ∈ cs, ∃ b ∈ bs, b.index = c.index ∧ b.factor ≠ c.factor := by
    simp only [SameFactors, not_forall] at h
    obtain ⟨b, hb, c, hc, hindex, hne⟩ := h
    exact ⟨c, hc, b, hb, hindex, hne⟩
  obtain ⟨before, c, after, hsplit, ⟨b, hb, hindex, hne⟩, hfirst⟩ := exists_first hsome
  have hbefore : SameFactors bs before := by
    intro b' hb' c' hc' hindex'
    by_contra hne'
    exact hfirst c' hc' ⟨b', hb', hindex', hne'⟩
  refine ⟨before, c, after, b, hsplit, hbefore, hb, hindex, hne, ?_⟩
  rw [matchFree_of_sameSymbols hbs hcs hsymbols, hsplit]
  refine mapM_append_error (fun c' hc' => ?_) ?_
  · obtain ⟨b', hb', hindex'⟩ := mem_symbols.1 ((hsymbols c'.index).2 (index_mem_symbols (by simp [hsplit, hc'])))
    exact Expr.matchOne_ok hbs hb' hindex' (hbefore b' hb' c' hc' hindex')
  · obtain ⟨p, hp⟩ := Expr.matchOne_eq hbs hb hindex
    exact hp.trans (if_neg hne)

/-- The positions of the indices of one list in the other are a permutation. -/
theorem matchFree_permutes (hbs : (symbols bs).Nodup) (hcs : (symbols cs).Nodup)
    (hsymbols : SameSymbols bs cs) (h : SameFactors bs cs) :
    ∃ ps, matchFree bs cs = .ok ps ∧ ps.Perm (List.range bs.length) ∧ Located (symbols bs) ps (symbols cs) := by
  obtain ⟨ps, hps⟩ : ∃ ps, cs.mapM (matchOne bs cs) = .ok ps := by
    refine mapM_ok fun c hc => ?_
    obtain ⟨b, hb, hindex⟩ := mem_symbols.1 ((hsymbols c.index).2 (index_mem_symbols hc))
    exact Expr.matchOne_ok hbs hb hindex (h b hb c hc hindex)
  have hmatch : matchFree bs cs = .ok ps := (matchFree_of_sameSymbols hbs hcs hsymbols).trans hps
  have hplan : (⟨ps, []⟩ : SumPlan).Matches bs cs := Expr.matchFree_eq_ok hmatch
  have hlocated : Located (symbols bs) ps (symbols cs) := hplan.located
  have hbound : ps ⊆ List.range bs.length := by
    intro p hp
    obtain ⟨i, -, hi⟩ := hlocated.exists_symbol hp
    rw [List.mem_range, ← length_symbols]
    exact (List.getElem?_eq_some_iff.1 hi).1
  refine ⟨ps, hmatch, ((hlocated.nodup hcs).subperm hbound).perm_of_length_le ?_, hlocated⟩
  rw [List.length_range, hlocated.length_eq, length_symbols, hplan.length_eq]

end Matching

/-! ### Assignments -/

namespace Target
variable {α : Type} [Scalar α] {t : Target} {op : Update} {e : Expr α} {s : Session α}

theorem of_ok {written : List Index} {factors : List Concept} {dims : List Nat} (region : Region)
    (unchecked : Bool) (hlength : written.length = factors.length) (hrank : written.length ≤ maxRank)
    (hdims : List.Forall₂ (fun c d => c.dimension = .ok d) factors dims) (hnodup : written.Nodup) :
    Target.of region written factors unchecked =
      .ok ⟨region, boundIndices written factors dims, unchecked⟩ := by
  unfold Target.of
  rw [Expr.factorDims_ok hlength hrank hdims, ok_bind, checkDistinct_eq_ok.2 hnodup]
  rfl

/-- No array of the expression has a byte in common with the target. -/
def Unaliased (t : Target) (m : Memory α) (e : Expr α) : Prop :=
  ∀ a ∈ e.arrays, ∀ byte, m.Occupies a byte → ¬m.HasByte t.region byte

theorem update_of_mismatch {err : ExprError} (h : matchFree t.free e.free = .error err) :
    t.update op e s = .error (.error err) s := by
  unfold update
  rw [h]
  rfl

theorem update_of_overlaps (ht : t.unchecked = false) {ps : List Nat} (hmatch : matchFree t.free e.free = .ok ps)
    (h : e.overlaps s.memory (s.memory.regionRange t.region) = true) :
    t.update op e s = .error (.error (.aliased (s.memory.regionRange t.region)))
      { s with log := s.log ++ [.aliased (s.memory.regionRange t.region)] } := by
  unfold update
  rw [hmatch, ht]
  show (if e.overlaps s.memory (s.memory.regionRange t.region) = true then (_ : Action α Unit) else _) s = _
  rw [if_pos h]
  rfl

omit [Scalar α] in
theorem unaliased_iff (hm : s.memory.Addressable)
    (hregion : t.region.start + t.region.count ≤ s.memory.cells.size) :
    t.Unaliased s.memory e ↔ e.overlaps s.memory (s.memory.regionRange t.region) = false := by
  rw [← Bool.not_eq_true, Expr.overlaps_iff]
  simp only [Memory.overlaps_range_iff hm hregion, Unaliased]
  constructor
  · rintro h ⟨a, ha, byte, hbyte, hbyte'⟩
    exact h a ha byte hbyte hbyte'
  · intro h a ha byte hbyte hbyte'
    exact h ⟨a, ha, byte, hbyte, hbyte'⟩

/-- An expression that matches the target and reads none of its memory is assigned to it. -/
theorem update_ok (op : Update) (ht : t.unchecked = false) (hnodup : (symbols t.free).Nodup)
    (hsize : Box.size t.dims = t.region.count) (hlimit : t.region.count < Count.limit)
    (hm : s.memory.Addressable) (hregion : t.region.start + t.region.count ≤ s.memory.cells.size)
    (he : Expr.Evaluable s.memory e) (hperm : t.free.Perm e.free)
    (hoverlap : e.overlaps s.memory (s.memory.regionRange t.region) = false) :
    ∃ s', t.update op e s = .ok () s' ∧ ∀ env, InRange t.free env → ∃ old x,
      t.componentAt s.memory env = .ok old ∧ e.componentAt s.memory env = .ok x ∧
        t.componentAt s'.memory env = .ok (op.apply old x) := by
  obtain ⟨permutation, hmatch⟩ := Expr.matchFree_ok hnodup hperm
  have hplan : (⟨permutation, []⟩ : SumPlan).Matches t.free e.free := Expr.matchFree_eq_ok hmatch
  -- no step changes how much memory there is
  have hstep : ∀ values ∈ Box.multiIndices t.dims, ∀ m : Memory α, m.cells.size = s.memory.cells.size →
      ∃ m', t.storeAt op (source e permutation s.memory) m values = .ok m' ∧
        m'.cells.size = s.memory.cells.size := by
    intro values hvalues m hcells
    have hbox := Box.mem_multiIndices.1 hvalues
    have hposition : Box.position values t.dims < t.region.count := hsize ▸ hbox.position_lt
    have hcell : t.region.start + Box.position values t.dims < m.cells.size := by omega
    obtain ⟨old, hold⟩ : ∃ old, m.readRegion t.region (Box.position values t.dims) = .ok old :=
      ⟨_, Memory.readRegion_eq_ok.2 ⟨hposition, Array.getElem?_eq_getElem hcell⟩⟩
    obtain ⟨env, rfl, henv⟩ := exists_inRange hnodup hbox
    obtain ⟨x, hx⟩ := he.total env fun b hb => henv b (hperm.mem_iff.2 hb)
    have hsource : source e permutation s.memory ((symbols t.free).map env) = .ok x :=
      (source_eq hplan he.toWellFormed env).trans hx
    refine ⟨m.put t.region (Box.position ((symbols t.free).map env) t.dims) (op.apply old x), ?_,
      Array.size_setIfInBounds.trans hcells⟩
    rw [storeAt, hsource, ok_bind, Box.flatten_eq hbox (hsize ▸ hlimit.le), ok_bind, hold]
    rfl
  obtain ⟨m', hloop⟩ := foldlM_ok_of_invariant _ hstep rfl
  refine ⟨⟨m', _⟩, (update_eq_ok ht).2 ⟨permutation, m', hmatch, hoverlap,
    (store_eq_none hregion fun _ hm₁ => Expr.component_congr hm hregion hm₁ hoverlap).2 hloop, rfl⟩,
    fun env henv => ?_⟩
  exact componentAt_of_loop hplan he.toWellFormed hloop henv

/-- What the assignment of an expression that matches the target depends on. -/
theorem update_ok_iff (ht : t.unchecked = false) (hnodup : (symbols t.free).Nodup)
    (hdims : ∀ b ∈ t.free, b.factor.dimension = .ok b.dim) (hsize : t.region.count = Box.size t.dims)
    (hm : s.memory.Addressable) (hregion : t.region.start + t.region.count ≤ s.memory.cells.size)
    (he : Expr.Evaluable s.memory e) : (∃ s', t.update op e s = .ok () s') ↔
      SameSymbols t.free e.free ∧ SameFactors t.free e.free ∧ t.Unaliased s.memory e := by
  have hperm : ∀ ps, matchFree t.free e.free = .ok ps → t.free.Perm e.free := by
    intro ps hmatch
    have hplan : (⟨ps, []⟩ : SumPlan).Matches t.free e.free := Expr.matchFree_eq_ok hmatch
    exact Expr.perm_of_matches hplan he.nodup hdims he.dimension
  constructor
  · rintro ⟨s', hrun⟩
    obtain ⟨ps, -, hmatch, hoverlap, -, -⟩ := (update_eq_ok ht).1 hrun
    exact ⟨.of_perm (hperm ps hmatch), .of_perm hnodup (hperm ps hmatch), (unaliased_iff hm hregion).2 hoverlap⟩
  · rintro ⟨hsymbols, hfactors, halias⟩
    obtain ⟨ps, hmatch, -, -⟩ := matchFree_permutes hnodup he.nodup hsymbols hfactors
    obtain ⟨s', hrun, -⟩ := update_ok op ht hnodup hsize.symm (hm.count_lt hregion) hm hregion he
      (hperm ps hmatch) ((unaliased_iff hm hregion).1 halias)
    exact ⟨s', hrun⟩

/-- An expression is assigned exactly if it has the symbols of the target, each over the same factor, and reads
no byte of it. Otherwise the first of the three that fails is reported, and the memory is as before. Indices
that match are assigned to each other by a permutation. -/
theorem update_accepts {region : Region} {written : List Index} {factors : List Concept}
    (ht : Target.of region written factors false = .ok t) (hsize : region.count = Box.size t.dims)
    (hm : s.memory.Addressable) (hregion : region.start + region.count ≤ s.memory.cells.size)
    (he : Expr.Ready s.memory e) (op : Update) :
    ((∃ s', t.update op e s = .ok () s') ↔
      SameSymbols t.free e.free ∧ SameFactors t.free e.free ∧ t.Unaliased s.memory e) ∧
    (¬SameSymbols t.free e.free →
      t.update op e s = .error (.error (.unmatchedFree (symbols t.free) (symbols e.free))) s) ∧
    (SameSymbols t.free e.free → ¬SameFactors t.free e.free →
      ∃ before c after b, e.free = before ++ c :: after ∧ SameFactors t.free before ∧ b ∈ t.free ∧
        b.index = c.index ∧ b.factor ≠ c.factor ∧
        t.update op e s = .error (.error (.factorMismatch c.index b.factor c.factor)) s) ∧
    (SameSymbols t.free e.free → SameFactors t.free e.free → ¬t.Unaliased s.memory e →
      t.update op e s = .error (.error (.aliased (s.memory.regionRange region)))
        { s with log := s.log ++ [.aliased (s.memory.regionRange region)] }) ∧
    (SameSymbols t.free e.free → SameFactors t.free e.free →
      ∃ ps, matchFree t.free e.free = .ok ps ∧ ps.Perm (List.range t.free.length) ∧
        Located (symbols t.free) ps (symbols e.free)) := by
  obtain ⟨rfl, hchecked, hnodup, hdims⟩ := of_eq_ok ht
  have hright : (symbols e.free).Nodup := he.evaluable.nodup
  refine ⟨update_ok_iff hchecked hnodup hdims hsize hm hregion he.evaluable,
    fun hsymbols => update_of_mismatch (matchFree_unmatched hsymbols), fun hsymbols hfactors => ?_,
    fun hsymbols hfactors halias => ?_, matchFree_permutes hnodup hright⟩
  · obtain ⟨before, c, after, b, hsplit, hbefore, hb, hindex, hne, hmatch⟩ :=
      matchFree_mismatch hnodup hright hsymbols hfactors
    exact ⟨before, c, after, b, hsplit, hbefore, hb, hindex, hne, update_of_mismatch hmatch⟩
  · obtain ⟨ps, hmatch, -, -⟩ := matchFree_permutes hnodup hright hsymbols hfactors
    rw [unaliased_iff hm hregion, Bool.not_eq_false] at halias
    exact update_of_overlaps hchecked hmatch halias

/-- The sum of a transposed matrix and another one is added to a third. It is refused if the first row of the
second summand is the last row of the target. The components of a matrix that was evaluated are in new cells:
they are added to the same target, and refused by one that reaches into these cells. -/
theorem update_accepts_sum :
    ∃ (factors : List Concept) (t t' : Target) (apart meeting e e' : Expr (Binary .double))
      (s s₁ : Session (Binary .double)),
      Target.of ⟨0, 4, true⟩ [.ofChar 'i', .ofChar 'j'] factors false = .ok t ∧ 4 = Box.size t.dims ∧
      s.memory.Addressable ∧ 0 + 4 ≤ s.memory.cells.size ∧ Expr.Ready s.memory apart ∧
      Expr.Ready s.memory meeting ∧ (∃ s', t.update .add apart s = .ok () s') ∧
      t.update .add meeting s = .error (.error (.aliased (s.memory.regionRange ⟨0, 4, true⟩)))
        { s with log := s.log ++ [.aliased (s.memory.regionRange ⟨0, 4, true⟩)] } ∧
      (∃ ps, matchFree t.free meeting.free = .ok ps ∧ ps.Perm (List.range 2) ∧
        Located (symbols t.free) ps [.ofChar 'j', .ofChar 'i']) ∧
      Target.of ⟨10, 4, false⟩ [.ofChar 'i', .ofChar 'j'] factors false = .ok t' ∧ e.eval s = .ok e' s₁ ∧
      Expr.Ready s₁.memory e' ∧ (∃ s', t.update .add e' s₁ = .ok () s') ∧
      t'.update .add e' s₁ = .error (.error (.aliased (s₁.memory.regionRange ⟨10, 4, false⟩)))
        { s₁ with log := s₁.log ++ [.aliased (s₁.memory.regionRange ⟨10, 4, false⟩)] } := by
  let space := Concept.realSpace 2
  have hspace := Concept.based_realSpace 2
  let s : Session (Binary .double) := ⟨⟨8, ((List.range 12).map fun k => .ofInt k).toArray⟩, []⟩
  let t : {t // Target.of ⟨0, 4, true⟩ [.ofChar 'i', .ofChar 'j'] [space, space] false = .ok t} := ⟨_, rfl⟩
  let t' : {t // Target.of ⟨10, 4, false⟩ [.ofChar 'i', .ofChar 'j'] [space, space] false = .ok t} := ⟨_, rfl⟩
  let a : {a : Expr (Binary .double) // Expr.indexed (.readOnly ⟨4, 4, true⟩) [.ofChar 'j', .ofChar 'i']
    [space, space] = .ok a} := ⟨_, rfl⟩
  let b : {b : Expr (Binary .double) // Expr.indexed (.readOnly ⟨8, 4, true⟩) [.ofChar 'i', .ofChar 'j']
    [space, space] = .ok b} := ⟨_, rfl⟩
  let c : {c : Expr (Binary .double) // Expr.indexed (.readOnly ⟨2, 4, true⟩) [.ofChar 'i', .ofChar 'j']
    [space, space] = .ok c} := ⟨_, rfl⟩
  let apart : {e // Expr.add .plus a.1 b.1 = .ok e} := ⟨_, rfl⟩
  let meeting : {e // Expr.add .plus a.1 c.1 = .ok e} := ⟨_, rfl⟩
  let evaluated : {p : Expr (Binary .double) × Session (Binary .double) // a.1.eval s = .ok p.1 p.2} :=
    ⟨(_, _), rfl⟩
  have hfills : ∀ start, start + 4 ≤ 12 →
      (Storage.readOnly ⟨start, 4, true⟩ : Storage (Binary .double)).Fills s.memory [space, space] := by
    intro start hstart
    exact ⟨by simpa [Storage.Valid, s] using hstart, by simpa using hspace, rfl, show 4 < Count.limit by decide⟩
  have hapart : Expr.Ready s.memory apart.1 := ⟨.sum _ (.indexed _ _ _ a.2) (.indexed _ _ _ b.2) apart.2,
    hfills 4 (by decide), hfills 8 (by decide)⟩
  have hmeeting : Expr.Ready s.memory meeting.1 := ⟨.sum _ (.indexed _ _ _ a.2) (.indexed _ _ _ c.2) meeting.2,
    hfills 4 (by decide), hfills 2 (by decide)⟩
  have hevaluated : Expr.Ready evaluated.1.2.memory evaluated.1.1 :=
    ⟨.evaluated (.indexed _ _ _ a.2) _ _ evaluated.2, hfills 4 (by decide)⟩
  have hm : s.memory.Addressable := ⟨by decide, by decide⟩
  have hm₁ : evaluated.1.2.memory.Addressable := ⟨by decide, by decide⟩
  have hregion : 0 + 4 ≤ s.memory.cells.size := by decide
  have hregion₁ : 0 + 4 ≤ evaluated.1.2.memory.cells.size := by decide
  have hregion' : 10 + 4 ≤ evaluated.1.2.memory.cells.size := by decide
  have hperm : t.1.free.Perm meeting.1.free := .swap _ _ _
  have hperm₁ : t.1.free.Perm evaluated.1.1.free := .swap _ _ _
  have hnodup : (symbols t.1.free).Nodup := by decide
  obtain ⟨haccepts, -⟩ := update_accepts t.2 rfl hm hregion hapart .add
  obtain ⟨-, -, -, hrefuses, hmatches⟩ := update_accepts t.2 rfl hm hregion hmeeting .add
  obtain ⟨haccepts₁, -⟩ := update_accepts t.2 rfl hm₁ hregion₁ hevaluated .add
  obtain ⟨-, -, -, hrefuses₁, -⟩ := update_accepts t'.2 rfl hm₁ hregion' hevaluated .add
  have halias : ¬t.1.Unaliased s.memory meeting.1 := by
    rw [unaliased_iff hm hregion]
    decide
  have halias₁ : ¬t'.1.Unaliased evaluated.1.2.memory evaluated.1.1 := by
    rw [unaliased_iff hm₁ hregion']
    decide
  have hunaliased : t.1.Unaliased evaluated.1.2.memory evaluated.1.1 := by
    rw [unaliased_iff hm₁ hregion₁]
    decide
  exact ⟨_, t.1, t'.1, apart.1, meeting.1, a.1, evaluated.1.1, s, evaluated.1.2, t.2, rfl, hm, hregion, hapart,
    hmeeting, haccepts.2 ⟨.of_perm hperm, .of_perm hnodup hperm, (unaliased_iff hm hregion).2 rfl⟩,
    hrefuses (.of_perm hperm) (.of_perm hnodup hperm) halias, hmatches (.of_perm hperm) (.of_perm hnodup hperm),
    t'.2, evaluated.2, hevaluated, haccepts₁.2 ⟨.of_perm hperm₁, .of_perm hnodup hperm₁, hunaliased⟩,
    hrefuses₁ (.of_perm hperm₁) (.of_perm hnodup hperm₁) halias₁⟩

end Target

end TensorCalculus
