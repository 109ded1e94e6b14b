import Mathlib.Data.List.Induction
import TensorCalculus.Proofs.FreeIndex

/-!
# The plan of an indexed array

`Leaf.Indexes` says in terms of symbols what `Leaf.of` works out: which written symbols are free, where
the symbols that are written twice stand, and how many values they have.
-/

namespace TensorCalculus

open TensorCalculus.Expr (freeAt)

/-- The symbols that were written before, in the order in which they are written again. -/
def repeatedSymbols (written : List Index) : List Index :=
  (written.zipIdx.filter fun p => (written.take p.2).contains p.1).map Prod.fst

/-- The indices over the factors of an array. -/
def boundIndices (written : List Index) (factors : List Concept) (dims : List Nat) : List BoundIndex :=
  (written.zip (factors.zip dims)).map fun (index, factor, dim) => ⟨index, factor, dim⟩

/-! ### Symbols that are written twice -/

theorem repeatedSymbols_concat (written : List Index) (i : Index) :
    repeatedSymbols (written ++ [i]) =
      repeatedSymbols written ++ if i ∈ written then [i] else [] := by
  have hold : ∀ p ∈ written.zipIdx, ((written ++ [i]).take p.2).contains p.1 =
      (written.take p.2).contains p.1 := by
    intro p hp
    have hlt := (List.getElem?_eq_some_iff.1 (List.mem_zipIdx_iff_getElem?.1 hp)).1
    rw [List.take_append_of_le_length (Nat.le_of_lt hlt)]
  rw [repeatedSymbols, repeatedSymbols, List.zipIdx_append, List.filter_append, List.map_append,
    List.filter_congr hold]
  congr 1
  by_cases hi : i ∈ written <;> simp [hi]

/-- Every occurrence of a symbol but the first one counts. -/
theorem count_repeatedSymbols (written : List Index) (i : Index) :
    (repeatedSymbols written).count i = written.count i - 1 := by
  induction written using List.reverseRecOn with
  | nil => rfl
  | append_singleton written j ih =>
    rw [repeatedSymbols_concat, List.count_append, List.count_append, ih]
    by_cases hji : j = i
    · subst hji
      by_cases hj : j ∈ written
      · have := List.count_pos_iff.2 hj
        rw [if_pos hj, List.count_singleton_self]
        omega
      · rw [if_neg hj, List.count_eq_zero_of_not_mem hj]
        simp
    · have hzero : [j].count i = 0 := List.count_eq_zero_of_not_mem (by simpa using Ne.symm hji)
      split
      · rw [hzero]
        omega
      · rw [hzero, List.count_nil]
        omega

theorem mem_repeatedSymbols {written : List Index} {i : Index} :
    i ∈ repeatedSymbols written ↔ 2 ≤ written.count i := by
  rw [← List.count_pos_iff, count_repeatedSymbols]
  omega

theorem nodup_repeatedSymbols {written : List Index} (h : ∀ i, written.count i ≤ 2) :
    (repeatedSymbols written).Nodup := by
  rw [List.nodup_iff_count_le_one]
  intro i
  have := h i
  rw [count_repeatedSymbols]
  omega

/-! ### Indices over factors -/

section Bound
variable {written : List Index} {factors : List Concept} {dims : List Nat}

theorem symbols_boundIndices (hfactors : written.length = factors.length)
    (hdims : factors.length = dims.length) : symbols (boundIndices written factors dims) = written := by
  rw [symbols, boundIndices, List.map_map]
  exact List.map_fst_zip (by simp [hfactors, hdims])

theorem length_boundIndices (hfactors : written.length = factors.length)
    (hdims : factors.length = dims.length) : (boundIndices written factors dims).length = written.length := by
  rw [← length_symbols, symbols_boundIndices hfactors hdims]

theorem dims_boundIndices (hfactors : written.length = factors.length)
    (hdims : factors.length = dims.length) : (boundIndices written factors dims).map BoundIndex.dim = dims := by
  rw [boundIndices, List.map_map]
  calc (written.zip (factors.zip dims)).map (fun x => x.2.2)
      = ((written.zip (factors.zip dims)).map Prod.snd).map Prod.snd := by rw [List.map_map]; rfl
    _ = dims := by
      rw [List.map_snd_zip (by simp [hfactors, hdims]), List.map_snd_zip (by omega)]

theorem factors_boundIndices (hfactors : written.length = factors.length)
    (hdims : factors.length = dims.length) :
    (boundIndices written factors dims).map BoundIndex.factor = factors := by
  rw [boundIndices, List.map_map]
  calc (written.zip (factors.zip dims)).map (fun x => x.2.1)
      = ((written.zip (factors.zip dims)).map Prod.snd).map Prod.fst := by rw [List.map_map]; rfl
    _ = factors := by
      rw [List.map_snd_zip (by simp [hfactors, hdims]), List.map_fst_zip (by omega)]

theorem getElem?_boundIndices {p : Nat} : (boundIndices written factors dims)[p]? =
    match written[p]?, factors[p]?, dims[p]? with
    | some index, some factor, some dim => some ⟨index, factor, dim⟩
    | _, _, _ => none := by
  rw [boundIndices, List.getElem?_map, List.zip, List.getElem?_zipWith, List.zip, List.getElem?_zipWith]
  cases written[p]? <;> cases factors[p]? <;> cases dims[p]? <;> rfl

theorem extentOf_boundIndices {p : Nat} {i : Index} (hfactors : written.length = factors.length)
    (hdims : factors.length = dims.length) (hp : written[p]? = some i)
    (hleast : ∀ q < p, written[q]? ≠ some i) :
    dims[p]? = some (extentOf (boundIndices written factors dims) i) := by
  have hlt := (List.getElem?_eq_some_iff.1 hp).1
  have hbound : boundOf (boundIndices written factors dims) i = (boundIndices written factors dims)[p]? :=
    boundOf_eq_getElem? (by rwa [symbols_boundIndices hfactors hdims])
      (by rwa [symbols_boundIndices hfactors hdims])
  rw [getElem?_boundIndices, hp, List.getElem?_eq_getElem (hfactors ▸ hlt),
    List.getElem?_eq_getElem (hdims ▸ hfactors ▸ hlt)] at hbound
  rw [extentOf, hbound, List.getElem?_eq_getElem (hdims ▸ hfactors ▸ hlt)]
  rfl

theorem boundAt_eq (ps : List Nat) :
    boundAt written factors dims ps = freeAt (boundIndices written factors dims) ps :=
  List.filterMap_congr fun _ _ => getElem?_boundIndices.symm

end Bound

theorem freeAt_filter_zipIdx (free : List BoundIndex) (keep : Index → Bool) :
    freeAt free (((symbols free).zipIdx.filter fun p => keep p.1).map Prod.snd) =
      free.filter fun b => keep b.index := by
  have hget : ∀ p ∈ free.zipIdx.filter (fun p => keep p.1.index), free[p.2]? = some p.1 :=
    fun p hp => List.mem_zipIdx_iff_getElem?.1 (List.mem_of_mem_filter hp)
  rw [symbols, List.zipIdx_map, List.filter_map, List.map_map, freeAt, List.filterMap_map]
  calc (free.zipIdx.filter fun p => keep p.1.index).filterMap (fun p => free[p.2]?)
      = (free.zipIdx.filter fun p => keep p.1.index).filterMap (some ∘ Prod.fst) :=
        List.filterMap_congr fun p hp => hget p hp
    _ = free.filter fun b => keep b.index := by
        rw [List.filterMap_eq_map, map_fst_filter_zipIdx fun b : BoundIndex => keep b.index]

/-! ### Pairs of positions -/

/-- The two positions of a symbol, over factors that are dual to each other. -/
structure PairedAt (written : List Index) (factors : List Concept) (i : Index) (pair : Nat × Nat) :
    Prop where
  first : written[pair.1]? = some i
  second : written[pair.2]? = some i
  least : ∀ q < pair.1, written[q]? ≠ some i
  dual : ∃ left right, factors[pair.1]? = some left ∧ factors[pair.2]? = some right ∧
    left.isDualOf right = true

section Pairs
variable {written : List Index} {factors : List Concept}

theorem pairAt_eq_none {slot : Nat} {i : Index} (hlen : written.length = factors.length)
    (hslot : written[slot]? = some i) (h : pairAt written factors slot i = .ok none) :
    i ∉ written.take slot := by
  unfold pairAt at h
  split at h
  · next hnone =>
    rw [List.findIdx?_eq_none_iff] at hnone
    exact fun hi => by simpa using hnone i hi
  · next first hfirst =>
    have hlt : first < written.length := by
      obtain ⟨hlt, -⟩ := List.findIdx?_eq_some_iff_getElem.1 hfirst
      rw [List.length_take] at hlt
      omega
    have hslot := (List.getElem?_eq_some_iff.1 hslot).1
    rw [List.getElem?_eq_getElem (hlen ▸ hlt), List.getElem?_eq_getElem (hlen ▸ hslot)] at h
    simp only at h
    split at h <;> cases h

theorem pairAt_eq_some {slot : Nat} {i : Index} {pair : Nat × Nat} (hslot : written[slot]? = some i)
    (h : pairAt written factors slot i = .ok (some pair)) :
    i ∈ written.take slot ∧ pair.2 = slot ∧ PairedAt written factors i pair := by
  unfold pairAt at h
  split at h
  · cases h
  · next first hfirst =>
    obtain ⟨hlt, hi, hleast⟩ := List.findIdx?_eq_some_iff_getElem.1 hfirst
    simp only [List.getElem_take, beq_iff_eq] at hi hleast
    have hwritten : first < written.length := by
      rw [List.length_take] at hlt
      omega
    split at h
    · next left right hleft hright =>
      split at h
      · next hdual =>
        cases h
        refine ⟨?_, rfl, ?_, hslot, ?_, left, right, hleft, hright, hdual⟩
        · have := List.getElem_mem hlt
          rwa [List.getElem_take, hi] at this
        · rw [List.getElem?_eq_getElem hwritten, hi]
        · intro q hq
          rw [List.getElem?_eq_getElem (Nat.lt_trans hq hwritten)]
          simpa using hleast q hq
      · cases h
    · cases h

/-- A loop that keeps some of the values it finds. -/
theorem forall₂_filterMap {γ δ ε : Type} {f : γ → Except ε (Option δ)} {R : γ → δ → Prop}
    {xs : List γ} {ys : List (Option δ)} (keep : γ → Bool) (h : xs.mapM f = .ok ys)
    (hnone : ∀ x ∈ xs, f x = .ok none → keep x = false)
    (hsome : ∀ x ∈ xs, ∀ z, f x = .ok (some z) → keep x = true ∧ R x z) :
    List.Forall₂ R (xs.filter keep) (ys.filterMap id) := by
  rw [mapM_eq_ok] at h
  induction h with
  | nil => exact .nil
  | @cons x y xs ys hxy _ ih =>
    have hrest := ih (fun x hx => hnone x (by simp [hx])) fun x hx => hsome x (by simp [hx])
    cases y with
    | none => simpa [List.filter_cons, hnone x (by simp) hxy] using hrest
    | some z =>
      obtain ⟨hkeep, hz⟩ := hsome x (by simp) z hxy
      simpa [List.filter_cons, hkeep] using And.intro hz hrest

theorem contains_occurring (hcount : ∀ i, written.count i ≤ 2) (i : Index) :
    (Occurrence.occurring 2 written).contains i = (repeatedSymbols written).contains i := by
  have := hcount i
  rw [Bool.eq_iff_iff, List.contains_iff_mem, List.contains_iff_mem, Occurrence.mem_occurring,
    mem_repeatedSymbols, ← List.count_pos_iff]
  omega

theorem summedPairs_eq_ok {pairs : List (Nat × Nat)} (hlen : written.length = factors.length)
    (hcount : ∀ i, written.count i ≤ 2)
    (h : summedPairs written factors (Occurrence.occurring 2 written) = .ok pairs) :
    List.Forall₂ (fun p pair => pair.2 = p.2 ∧ PairedAt written factors p.1 pair)
      (written.zipIdx.filter fun p => (written.take p.2).contains p.1) pairs := by
  rw [summedPairs] at h
  obtain ⟨ys, hys, h⟩ := bind_eq_ok.1 h
  cases h
  have hget : ∀ p ∈ written.zipIdx.filter (fun p => (Occurrence.occurring 2 written).contains p.1),
      written[p.2]? = some p.1 := fun p hp =>
    List.mem_zipIdx_iff_getElem?.1 (List.mem_of_mem_filter hp)
  have hpairs := forall₂_filterMap (fun p => (written.take p.2).contains p.1)
    (R := fun p pair => pair.2 = p.2 ∧ PairedAt written factors p.1 pair) hys
    (fun p hp hnone => by simpa using pairAt_eq_none hlen (hget p hp) hnone)
    (fun p hp pair hsome => by simpa using pairAt_eq_some (hget p hp) hsome)
  have htwice : ∀ p ∈ written.zipIdx, ((written.take p.2).contains p.1 &&
      (Occurrence.occurring 2 written).contains p.1) = (written.take p.2).contains p.1 := by
    intro p hp
    by_cases hbefore : (written.take p.2).contains p.1
    · have hrepeated : p.1 ∈ repeatedSymbols written :=
        List.mem_map_of_mem (List.mem_filter.2 ⟨hp, hbefore⟩)
      rw [contains_occurring hcount, List.contains_iff_mem.2 hrepeated, Bool.and_true]
    · rw [Bool.not_eq_true] at hbefore
      rw [hbefore, Bool.false_and]
  rwa [List.filter_filter, List.filter_congr htwice] at hpairs

theorem mem_freePositions {used : List Index} {p : Nat} : p ∈ freePositions written used ↔
    ∃ i, written[p]? = some i ∧ (!used.contains i) = true := by
  simp only [freePositions, List.mem_map, List.mem_filter, Prod.exists, exists_eq_right,
    List.mem_zipIdx_iff_getElem?]

theorem lt_of_mem_freePositions {used : List Index} {p : Nat} (h : p ∈ freePositions written used) :
    p < written.length := by
  obtain ⟨i, hi, -⟩ := mem_freePositions.1 h
  exact (List.getElem?_eq_some_iff.1 hi).1

/-- Each position of a repeated symbol is the first or the second of a pair. -/
theorem mem_pairs_of_repeated {pairs : List (Nat × Nat)} {p : Nat} {i : Index}
    (h : List.Forall₂ (fun p pair => pair.2 = p.2 ∧ PairedAt written factors p.1 pair)
      (written.zipIdx.filter fun p => (written.take p.2).contains p.1) pairs)
    (hp : written[p]? = some i) (hi : i ∈ repeatedSymbols written) :
    p ∈ pairs.map Prod.fst ∨ p ∈ pairs.map Prod.snd := by
  by_cases hbefore : i ∈ written.take p
  · have hmem : (i, p) ∈ written.zipIdx.filter (fun p => (written.take p.2).contains p.1) :=
      List.mem_filter.2 ⟨List.mem_zipIdx_iff_getElem?.2 hp, by simpa using hbefore⟩
    obtain ⟨pair, hpair, hsecond, -⟩ := forall₂_exists_right h hmem
    exact .inr (List.mem_map.2 ⟨pair, hpair, hsecond⟩)
  · obtain ⟨q, hq, rfl⟩ := List.mem_map.1 hi
    obtain ⟨pair, hpair, -, hpaired⟩ := forall₂_exists_right h hq
    refine .inl (List.mem_map.2 ⟨pair, hpair, ?_⟩)
    rcases Nat.lt_trichotomy pair.1 p with hlt | heq | hlt
    · refine absurd (List.mem_of_getElem? (i := pair.1) ?_) hbefore
      rw [List.getElem?_take_of_lt hlt, hpaired.first]
    · exact heq
    · exact absurd hp (hpaired.least p hlt)

theorem filterMap_extents {dims : List Nat} {is : List Index} {pairs : List (Nat × Nat)}
    (hfactors : written.length = factors.length) (hdims : factors.length = dims.length)
    (h : List.Forall₂ (PairedAt written factors) is pairs) :
    pairs.filterMap (fun p => dims[p.1]?) = is.map (extentOf (boundIndices written factors dims)) := by
  induction h with
  | nil => rfl
  | cons hpaired _ ih =>
    have hextent := extentOf_boundIndices hfactors hdims hpaired.first hpaired.least
    rw [List.filterMap_cons, hextent, List.map_cons, ih]

end Pairs

/-! ### The plan -/

theorem factorDims_eq_ok {written : List Index} {factors : List Concept} {dims : List Nat}
    (h : factorDims written factors = .ok dims) :
    written.length = factors.length ∧ written.length ≤ maxRank ∧
      List.Forall₂ (fun c d => c.dimension = .ok d) factors dims := by
  unfold factorDims at h
  dsimp only at h
  split at h
  · cases h
  · next hlen =>
    obtain ⟨⟨⟩, hrank, h⟩ := bind_eq_ok.1 h
    refine ⟨not_not.1 hlen, checkRank_eq_ok.1 (mapError_eq_ok.1 hrank), ?_⟩
    exact (mapM_eq_ok.1 h).imp fun c d hd => mapError_eq_ok.1 hd

namespace Leaf
variable {α : Type}

/-- What the plan of an array over the given factors holds. -/
structure Indexes (l : Leaf α) (factors : List Concept) : Prop where
  arity : l.written.length = factors.length
  rank_le : l.written.length ≤ maxRank
  dimension : List.Forall₂ (fun c d => c.dimension = .ok d) factors l.dims
  count_le : ∀ i, l.written.count i ≤ 2
  free_eq : l.free = without (boundIndices l.written factors l.dims) (repeatedSymbols l.written)
  located : Located l.written l.freeSlots (symbols l.free)
  pairs : List.Forall₂ (PairedAt l.written factors) (repeatedSymbols l.written) l.summed
  covers : ∀ p < l.written.length, p ∈ l.freeSlots ∨ p ∈ l.summed.map Prod.fst ∨
    p ∈ l.summed.map Prod.snd
  extents_eq : l.extents =
    (repeatedSymbols l.written).map (extentOf (boundIndices l.written factors l.dims))

/-- What each step of the construction gave. -/
theorem of_cases {l : Leaf α} {storage : Storage α} {written : List Index} {factors : List Concept}
    (h : Leaf.of storage written factors = .ok l) :
    ∃ dims pairs, factorDims written factors = .ok dims ∧ (∀ i, written.count i ≤ 2) ∧
      summedPairs written factors (Occurrence.occurring 2 written) = .ok pairs ∧
      l = { storage, written, dims, used := Occurrence.occurring 2 written, summed := pairs
            freeSlots := freePositions written (Occurrence.occurring 2 written)
            extents := pairs.filterMap fun p => dims[p.1]?
            free := boundAt written factors dims (freePositions written (Occurrence.occurring 2 written)) } := by
  unfold Leaf.of at h
  obtain ⟨dims, hdims, h⟩ := bind_eq_ok.1 h
  dsimp only at h
  split at h
  · cases h
  next hoverused =>
  obtain ⟨pairs, hpairs, h⟩ := bind_eq_ok.1 h
  obtain ⟨⟨⟩, -, h⟩ := bind_eq_ok.1 h
  cases h
  refine ⟨dims, pairs, hdims, Occurrence.count_le_two_of_overused ?_, hpairs, rfl⟩
  cases hlist : Occurrence.overused written with
  | nil => rfl
  | cons p ps => exact (hoverused p.1 p.2 ps hlist).elim

theorem of_eq_ok {l : Leaf α} {storage : Storage α} {written : List Index} {factors : List Concept}
    (h : Leaf.of storage written factors = .ok l) :
    l.storage = storage ∧ l.written = written ∧ l.Indexes factors := by
  obtain ⟨dims, pairs, hdims, hcount, hpairs, rfl⟩ := of_cases h
  obtain ⟨harity, hrank, hdims⟩ := factorDims_eq_ok hdims
  have hsymbols : symbols (boundIndices written factors dims) = written :=
    symbols_boundIndices harity hdims.length_eq
  have hused := contains_occurring hcount
  have hpairs := summedPairs_eq_ok harity hcount hpairs
  have hlist : List.Forall₂ (PairedAt written factors) (repeatedSymbols written) pairs := by
    rw [repeatedSymbols, List.forall₂_map_left_iff]
    exact hpairs.imp fun p pair h => h.2
  refine ⟨rfl, rfl, harity, hrank, hdims, hcount, ?_, ?_, hlist, ?_, ?_⟩
  · have hfree := freeAt_filter_zipIdx (boundIndices written factors dims)
      fun i => !(Occurrence.occurring 2 written).contains i
    rw [hsymbols] at hfree
    simp only [hused] at hfree
    simp only [boundAt_eq, freePositions, hused]
    exact hfree
  · have hlocated : Located (symbols (boundIndices written factors dims))
        (freePositions written (Occurrence.occurring 2 written)) _ := located_freeAt fun p hp => by
      rw [← length_symbols, hsymbols]
      exact lt_of_mem_freePositions hp
    rwa [hsymbols, ← boundAt_eq] at hlocated
  · intro p hp
    have hget : written[p]? = some written[p] := List.getElem?_eq_getElem hp
    by_cases hrepeated : written[p] ∈ repeatedSymbols written
    · exact .inr (mem_pairs_of_repeated hpairs hget hrepeated)
    · refine .inl (mem_freePositions.2 ⟨written[p], hget, ?_⟩)
      rw [hused]
      simpa using hrepeated
  · exact filterMap_extents harity hdims.length_eq hlist

namespace Indexes
variable {l : Leaf α} {factors : List Concept}

theorem symbols_bound (h : l.Indexes factors) :
    symbols (boundIndices l.written factors l.dims) = l.written :=
  symbols_boundIndices h.arity h.dimension.length_eq

theorem symbols_free (h : l.Indexes factors) :
    symbols l.free = l.written.filter fun i => !(repeatedSymbols l.written).contains i := by
  rw [h.free_eq, symbols_without, h.symbols_bound]

theorem nodup_free (h : l.Indexes factors) : (symbols l.free).Nodup := by
  rw [h.symbols_free, List.nodup_iff_count_le_one]
  intro i
  by_cases hi : i ∈ repeatedSymbols l.written
  · rw [List.count_eq_zero_of_not_mem (by simp [hi])]
    omega
  · have := mt mem_repeatedSymbols.2 hi
    refine Nat.le_trans (List.Sublist.count_le i List.filter_sublist) ?_
    omega

theorem nodup_repeated (h : l.Indexes factors) : (repeatedSymbols l.written).Nodup :=
  nodup_repeatedSymbols h.count_le

theorem not_mem_repeated (h : l.Indexes factors) {i : Index} (hi : i ∈ symbols l.free) :
    i ∉ repeatedSymbols l.written := by
  rw [h.symbols_free] at hi
  simpa using (List.mem_filter.1 hi).2

theorem located_first (h : l.Indexes factors) :
    Located l.written (l.summed.map Prod.fst) (repeatedSymbols l.written) := by
  rw [Located, List.forall₂_map_left_iff]
  exact h.pairs.flip.imp fun _ _ hp => hp.first

theorem located_second (h : l.Indexes factors) :
    Located l.written (l.summed.map Prod.snd) (repeatedSymbols l.written) := by
  rw [Located, List.forall₂_map_left_iff]
  exact h.pairs.flip.imp fun _ _ hp => hp.second

theorem rank_free_le (h : l.Indexes factors) : l.free.length ≤ maxRank := by
  have hle : (symbols l.free).length ≤ l.written.length := h.symbols_free ▸ List.length_filter_le ..
  rw [length_symbols] at hle
  exact Nat.le_trans hle h.rank_le

end Indexes

end Leaf

end TensorCalculus
