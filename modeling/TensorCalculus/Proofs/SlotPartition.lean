import TensorCalculus.Index.Odometer
import TensorCalculus.Proofs.Acceptance

/-!
# The written positions of an array

Indices can be written on the factors of an array if none is written more than twice and those written twice
stand on factors dual to each other (`LawfulIndices`). The plan of the array then gives every written
position one place: it is the position of a free index, or the first or the second of a pair that is summed
together (`Leaf.Partitions`).

A pair belongs to the one symbol that stands at both its positions (`Leaf.Indexes.eq_of_symbol`). Nothing but
this and the list of repeated symbols is needed to see that no position is missed or taken twice.
-/

namespace TensorCalculus

/-- The indices can be written on the factors. -/
structure LawfulIndices (written : List Index) (factors : List Concept) : Prop where
  arity : written.length = factors.length
  rank_le : written.length ≤ 16
  dimension : ∀ c ∈ factors, ∃ d, c.dimension = .ok d
  count_le : ∀ i, written.count i ≤ 2
  /-- The two factors of a symbol that is written twice. -/
  dual : ∀ (p q : Nat) (i : Index) (c d : Concept), p ≠ q → written[p]? = some i → written[q]? = some i →
    factors[p]? = some c → factors[q]? = some d → c.isDualOf d = true

/-- Every written position belongs to a free index or to one pair that is summed together, and what the plan
keeps for them is what stands there. -/
structure Leaf.Partitions {α : Type} (l : Leaf α) (written : List Index) (factors : List Concept) : Prop where
  written_eq : l.written = written
  dims_eq : List.Forall₂ (fun c d => c.dimension = .ok d) factors l.dims
  mem_freeSlots : ∀ p, p ∈ l.freeSlots ↔ ∃ i, written[p]? = some i ∧ written.count i = 1
  freeSlots_sorted : l.freeSlots.Pairwise (· < ·)
  mem_summed : ∀ p q, (p, q) ∈ l.summed ↔ p < q ∧ ∃ i, written[p]? = some i ∧ written[q]? = some i
  /-- No position is missing, and none is there twice. -/
  each_once : (l.freeSlots ++ (l.summed.map Prod.fst ++ l.summed.map Prod.snd)).Perm
    (List.range written.length)
  free_at : List.Forall₂ (fun p b => written[p]? = some b.index ∧ factors[p]? = some b.factor ∧
    l.dims[p]? = some b.dim) l.freeSlots l.free
  used_nodup : l.used.Nodup
  mem_used : ∀ i, i ∈ l.used ↔ written.count i = 2
  used_at : (l.summed.map fun s => written[s.1]?).Perm (l.used.map some)
  extents_at : List.Forall₂ (fun s d => l.dims[s.1]? = some d ∧ l.dims[s.2]? = some d) l.summed l.extents
  /-- The counter over the summed indices can be made. -/
  counter : Odometer.of l.extents = .ok (.first l.extents)

/-! ### Free positions -/

section Lists
variable {written : List Index} {factors : List Concept} {dims : List Nat}

theorem mem_freePositions_occurring (hcount : ∀ i, written.count i ≤ 2) {p : Nat} :
    p ∈ freePositions written (Occurrence.occurring 2 written) ↔
      ∃ i, written[p]? = some i ∧ written.count i = 1 := by
  rw [mem_freePositions]
  refine exists_congr fun i => and_congr_right fun hp => ?_
  have hmem := List.mem_of_getElem? hp
  have hpos := List.count_pos_iff.2 hmem
  have hle := hcount i
  rw [Bool.not_eq_true', ← Bool.not_eq_true, List.contains_iff_mem, Occurrence.mem_occurring]
  constructor
  · intro h
    have : written.count i ≠ 2 := fun htwo => h ⟨hmem, htwo⟩
    omega
  · rintro h ⟨-, htwo⟩
    omega

theorem pairwise_freePositions (written used : List Index) : (freePositions written used).Pairwise (· < ·) := by
  have hsub : (freePositions written used).Sublist (written.zipIdx.map Prod.snd) := List.filter_sublist.map _
  rw [List.zipIdx_map_snd] at hsub
  exact (List.pairwise_lt_range' ..).sublist hsub

theorem mem_occurring_two {i : Index} : i ∈ Occurrence.occurring 2 written ↔ written.count i = 2 := by
  rw [Occurrence.mem_occurring, ← List.count_pos_iff]
  omega

theorem repeatedSymbols_perm (hcount : ∀ i, written.count i ≤ 2) :
    (repeatedSymbols written).Perm (Occurrence.occurring 2 written) := by
  refine (List.perm_ext_iff_of_nodup (nodup_repeatedSymbols hcount) (Occurrence.nodup_occurring 2 written)).2
    fun i => ?_
  have := hcount i
  rw [mem_repeatedSymbols, mem_occurring_two]
  omega

theorem forall₂_boundAt (hfactors : written.length = factors.length) (hdims : factors.length = dims.length)
    {ps : List Nat} (h : ∀ p ∈ ps, p < written.length) :
    List.Forall₂ (fun p b => written[p]? = some b.index ∧ factors[p]? = some b.factor ∧
      dims[p]? = some b.dim) ps (boundAt written factors dims ps) := by
  refine forall₂_filterMap_some fun p hp => ?_
  have hp := h p hp
  have hfactor : factors[p]? = some (factors.get ⟨p, hfactors ▸ hp⟩) := List.getElem?_eq_getElem _
  have hdim : dims[p]? = some (dims.get ⟨p, hdims ▸ hfactors ▸ hp⟩) := List.getElem?_eq_getElem _
  rw [List.getElem?_eq_getElem hp, hfactor, hdim]
  exact ⟨_, rfl, rfl, rfl, rfl⟩

end Lists

namespace Leaf
variable {α : Type} {l : Leaf α} {storage : Storage α} {written : List Index} {factors : List Concept}

/-! ### Pairs -/

/-- The second position of a pair is behind the first. -/
theorem summed_lt (h : Leaf.of storage written factors = .ok l) {s : Nat × Nat} (hs : s ∈ l.summed) :
    s.1 < s.2 := by
  obtain ⟨dims, pairs, hdims, hcount, hpairs, rfl⟩ := of_cases h
  have hpairs := summedPairs_eq_ok (factorDims_eq_ok hdims).1 hcount hpairs
  obtain ⟨x, hx, hsecond, hpaired⟩ := forall₂_exists_right hpairs.flip hs
  have hbefore : x.1 ∈ written.take x.2 := by simpa using (List.mem_filter.1 hx).2
  obtain ⟨q, hq⟩ := List.mem_iff_getElem?.1 hbefore
  rw [List.getElem?_take] at hq
  split at hq
  · next hlt =>
    have hle : s.1 ≤ q := Nat.not_lt.1 fun hqs => hpaired.least q hqs hq
    omega
  · cases hq

namespace Indexes
variable (hl : l.Indexes factors)
include hl

theorem paired {s : Nat × Nat} (hs : s ∈ l.summed) :
    ∃ i ∈ repeatedSymbols l.written, PairedAt l.written factors i s := forall₂_exists_right hl.pairs.flip hs

/-- There is one pair for each symbol. -/
theorem eq_of_symbol {s t : Nat × Nat} {i : Index} (hs : s ∈ l.summed) (ht : t ∈ l.summed)
    (hsi : l.written[s.1]? = some i) (hti : l.written[t.1]? = some i) : s = t := by
  have hget : ∀ u ∈ l.summed, l.written[u.1]? = some i →
      ∃ k : Nat, l.summed[k]? = some u ∧ (repeatedSymbols l.written)[k]? = some i := by
    intro u hu hui
    obtain ⟨k, hk⟩ := List.mem_iff_getElem?.1 hu
    obtain ⟨j, hj, hpaired⟩ := forall₂_getElem? hl.pairs.flip hk
    obtain rfl := Option.some.inj (hui.symm.trans hpaired.first)
    exact ⟨k, hk, hj⟩
  obtain ⟨k, hk, hki⟩ := hget s hs hsi
  obtain ⟨k', hk', hki'⟩ := hget t ht hti
  have hlt := (List.getElem?_eq_some_iff.1 hki).1
  obtain rfl := (List.getElem?_inj hlt hl.nodup_repeated).1 (hki.trans hki'.symm)
  exact Option.some.inj (hk.symm.trans hk')

theorem not_mem_freeSlots {p : Nat} {i : Index} (hp : l.written[p]? = some i)
    (hi : i ∈ repeatedSymbols l.written) : p ∉ l.freeSlots := by
  intro hfree
  obtain ⟨j, hj, hpj⟩ := hl.located.exists_symbol hfree
  obtain rfl := Option.some.inj (hp.symm.trans hpj)
  exact hl.not_mem_repeated hj hi

/-- A position that comes first in a pair does not come second in one. -/
theorem not_mem_second (hlt : ∀ s ∈ l.summed, s.1 < s.2) {s : Nat × Nat} (hs : s ∈ l.summed) :
    s.1 ∉ l.summed.map Prod.snd := by
  intro hmem
  obtain ⟨t, ht, heq⟩ := List.mem_map.1 hmem
  obtain ⟨i, -, hsi⟩ := hl.paired hs
  obtain ⟨j, -, htj⟩ := hl.paired ht
  obtain rfl := Option.some.inj ((heq ▸ htj.second).symm.trans hsi.first)
  exact hsi.least t.1 (heq ▸ hlt t ht) htj.first

theorem mem_summed_iff (hlt : ∀ s ∈ l.summed, s.1 < s.2) {p q : Nat} :
    (p, q) ∈ l.summed ↔ p < q ∧ ∃ i, l.written[p]? = some i ∧ l.written[q]? = some i := by
  constructor
  · intro h
    obtain ⟨i, -, hpaired⟩ := hl.paired h
    exact ⟨hlt _ h, i, hpaired.first, hpaired.second⟩
  rintro ⟨hpq, i, hp, hq⟩
  have htwice : i ∈ repeatedSymbols l.written := by
    refine List.mem_map.2 ⟨(i, q), List.mem_filter.2 ⟨List.mem_zipIdx_iff_getElem?.2 hq, ?_⟩, rfl⟩
    rw [List.contains_iff_mem]
    exact List.mem_of_getElem? ((List.getElem?_take_of_lt hpq).trans hp)
  obtain ⟨s, hs, hsi⟩ := forall₂_exists_right hl.pairs htwice
  -- both positions are in the pair of the symbol, and they are different
  have hin : ∀ r, l.written[r]? = some i → r = s.1 ∨ r = s.2 := by
    intro r hr
    rcases hl.covers r (List.getElem?_eq_some_iff.1 hr).1 with hfree | hfirst | hsecond
    · exact absurd hfree (hl.not_mem_freeSlots hr htwice)
    · obtain ⟨t, ht, rfl⟩ := List.mem_map.1 hfirst
      exact .inl (congrArg Prod.fst (hl.eq_of_symbol ht hs hr hsi.first))
    · obtain ⟨t, ht, rfl⟩ := List.mem_map.1 hsecond
      obtain ⟨j, -, htj⟩ := hl.paired ht
      obtain rfl := Option.some.inj (hr.symm.trans htj.second)
      exact .inr (congrArg Prod.snd (hl.eq_of_symbol ht hs htj.first hsi.first))
  have hslt := hlt s hs
  obtain rfl : (p, q) = s := by
    rcases hin p hp with hp | hp <;> rcases hin q hq with hq | hq
    · omega
    · exact Prod.ext hp hq
    · omega
    · omega
  exact hs

/-- Each position is that of a free index, or the first or the second one of a pair. -/
theorem perm_range (hfree : l.freeSlots.Nodup) (hlt : ∀ s ∈ l.summed, s.1 < s.2) :
    (l.freeSlots ++ (l.summed.map Prod.fst ++ l.summed.map Prod.snd)).Perm
      (List.range l.written.length) := by
  have hpairs : (l.summed.map Prod.fst ++ l.summed.map Prod.snd).Nodup := by
    refine List.nodup_append.2 ⟨hl.located_first.nodup hl.nodup_repeated,
      hl.located_second.nodup hl.nodup_repeated, ?_⟩
    rintro p hp _ hq rfl
    obtain ⟨s, hs, rfl⟩ := List.mem_map.1 hp
    exact hl.not_mem_second hlt hs hq
  have hrepeated : ∀ p ∈ l.summed.map Prod.fst ++ l.summed.map Prod.snd,
      ∃ i ∈ repeatedSymbols l.written, l.written[p]? = some i := by
    intro p hp
    rcases List.mem_append.1 hp with hp | hp
    · exact hl.located_first.exists_symbol hp
    · exact hl.located_second.exists_symbol hp
  have hnodup : (l.freeSlots ++ (l.summed.map Prod.fst ++ l.summed.map Prod.snd)).Nodup := by
    refine List.nodup_append.2 ⟨hfree, hpairs, ?_⟩
    rintro p hp _ hq rfl
    obtain ⟨i, hi, hpi⟩ := hrepeated p hq
    exact hl.not_mem_freeSlots hpi hi hp
  refine (List.perm_ext_iff_of_nodup hnodup List.nodup_range).2 fun p => ?_
  rw [List.mem_append, List.mem_append, List.mem_range]
  refine ⟨fun hp => ?_, hl.covers p⟩
  have hsymbol : ∃ i, l.written[p]? = some i := by
    rcases hp with hp | hp
    · obtain ⟨i, -, hi⟩ := hl.located.exists_symbol hp
      exact ⟨i, hi⟩
    · obtain ⟨i, -, hi⟩ := hrepeated p (List.mem_append.2 hp)
      exact ⟨i, hi⟩
  obtain ⟨i, hi⟩ := hsymbol
  exact (List.getElem?_eq_some_iff.1 hi).1

theorem map_first : (l.summed.map fun s => l.written[s.1]?) = (repeatedSymbols l.written).map some := by
  have hmap : List.Forall₂ Eq (l.summed.map fun s => l.written[s.1]?)
      ((repeatedSymbols l.written).map some) := by
    rw [List.forall₂_map_left_iff, List.forall₂_map_right_iff]
    exact hl.pairs.flip.imp fun s i h => h.first
  exact List.forall₂_eq_eq_eq ▸ hmap

/-- The two positions of a pair have the same extent, since dual factors have the same dimension. -/
theorem extent_pair {s : Nat × Nat} (hs : s ∈ l.summed) :
    ∃ d, l.dims[s.1]? = some d ∧ l.dims[s.2]? = some d := by
  obtain ⟨i, -, hpaired⟩ := hl.paired hs
  obtain ⟨left, right, hleft, hright, hdual⟩ := hpaired.dual
  obtain ⟨d, hd, hdimension⟩ := forall₂_getElem? hl.dimension hleft
  obtain ⟨d', hd', hdimension'⟩ := forall₂_getElem? hl.dimension hright
  have hsame := (Concept.dimension_of_isDualOf hdual).1 hdimension
  obtain rfl : d = d' := Except.ok.inj (hsame.symm.trans hdimension')
  exact ⟨d, hd, hd'⟩

theorem length_extents_le : l.extents.length ≤ maxRank := by
  rw [hl.extents_eq, List.length_map, repeatedSymbols, List.length_map]
  refine (List.length_filter_le _ _).trans ?_
  rw [List.length_zipIdx]
  exact hl.rank_le

theorem dual_pair (hlt : ∀ s ∈ l.summed, s.1 < s.2) {p q : Nat} {i : Index} {c d : Concept} (hpq : p < q)
    (hp : l.written[p]? = some i) (hq : l.written[q]? = some i) (hc : factors[p]? = some c)
    (hd : factors[q]? = some d) : c.isDualOf d = true := by
  obtain ⟨j, -, hpaired⟩ := hl.paired ((hl.mem_summed_iff hlt).2 ⟨hpq, i, hp, hq⟩)
  obtain ⟨left, right, hleft, hright, hdual⟩ := hpaired.dual
  obtain rfl := Option.some.inj (hleft.symm.trans hc)
  obtain rfl := Option.some.inj (hright.symm.trans hd)
  exact hdual

end Indexes

/-! ### What is accepted, and the plan -/

theorem of_lawful (h : LawfulIndices written factors) (storage : Storage α) :
    ∃ l, Leaf.of storage written factors = .ok l := by
  obtain ⟨dims, hdims⟩ := mapM_ok h.dimension
  obtain ⟨e, he⟩ := Expr.indexed_ok storage h.arity h.rank_le (mapM_eq_ok.1 hdims) h.count_le
    fun p q i c d hpq => h.dual p q i c d (Nat.ne_of_lt hpq)
  obtain ⟨l, hl, -⟩ := bind_eq_ok.1 he
  exact ⟨l, hl⟩

theorem lawful_of (h : Leaf.of storage written factors = .ok l) : LawfulIndices written factors := by
  have hlt : ∀ s ∈ l.summed, s.1 < s.2 := fun s => summed_lt h
  obtain ⟨-, rfl, hl⟩ := of_eq_ok h
  refine ⟨hl.arity, hl.rank_le, fun c hc => ?_, hl.count_le, fun p q i c d hpq hp hq hc hd => ?_⟩
  · obtain ⟨d, -, hd⟩ := forall₂_exists_right hl.dimension hc
    exact ⟨d, hd⟩
  · rcases Nat.lt_or_gt_of_ne hpq with hpq | hqp
    · exact hl.dual_pair hlt hpq hp hq hc hd
    · have hdual := Concept.isDualOf_iff.1 (hl.dual_pair hlt hqp hq hp hd hc)
      rw [Concept.isDualOf_iff, ← hdual, Concept.dual_dual]

theorem partitions_of (h : Leaf.of storage written factors = .ok l) : l.Partitions written factors := by
  have hlt : ∀ s ∈ l.summed, s.1 < s.2 := fun s => summed_lt h
  obtain ⟨-, -, hl⟩ := of_eq_ok h
  obtain ⟨dims, pairs, -, hcount, -, rfl⟩ := of_cases h
  have hsorted := pairwise_freePositions written (Occurrence.occurring 2 written)
  refine ⟨rfl, hl.dimension, fun p => mem_freePositions_occurring hcount, hsorted,
    fun p q => hl.mem_summed_iff hlt, hl.perm_range (hsorted.imp Nat.ne_of_lt) hlt,
    forall₂_boundAt hl.arity hl.dimension.length_eq fun p => lt_of_mem_freePositions,
    Occurrence.nodup_occurring 2 written,
    fun i => mem_occurring_two, ?_, forall₂_filterMap_some fun s hs => ?_, ?_⟩
  · rw [hl.map_first]
    exact (repeatedSymbols_perm hcount).map some
  · obtain ⟨d, hfirst, hsecond⟩ := hl.extent_pair hs
    exact ⟨d, hfirst, hfirst, hsecond⟩
  · rw [Odometer.of, checkRank_eq_ok.2 hl.length_extents_le]
    rfl

/-- An array can be indexed exactly if the indices are lawful. The written positions are then divided between the
free indices and the pairs that are summed together. -/
theorem written_positions_partition (storage : Storage α) (written : List Index) (factors : List Concept) :
    ((∃ l, Leaf.of storage written factors = .ok l) ↔ LawfulIndices written factors) ∧
    ∀ l, Leaf.of storage written factors = .ok l → l.storage = storage ∧ l.Partitions written factors :=
  ⟨⟨fun ⟨_, h⟩ => lawful_of h, fun h => of_lawful h storage⟩,
    fun _ h => ⟨(of_eq_ok h).1, partitions_of h⟩⟩

/-- Of `i j j i k` the outer pair and the inner pair are summed over, and the last position is free. -/
theorem written_positions_partition_nested :
    let space := Concept.realSpace
    let written := IndexList.ofString "ijjik"
    let factors := [space 3, space 2, (space 2).dual, (space 3).dual, space 2]
    ∃ l : Leaf (Binary .double), Leaf.of (.readOnly ⟨0, 72, true⟩) written factors = .ok l ∧
      LawfulIndices written factors ∧ (0, 3) ∈ l.summed ∧ (1, 2) ∈ l.summed ∧ 4 ∈ l.freeSlots ∧
      .ofChar 'i' ∈ l.used ∧ .ofChar 'k' ∉ l.used := by
  intro space written factors
  let storage : Storage (Binary .double) := .readOnly ⟨0, 72, true⟩
  let l : {l // Leaf.of storage written factors = .ok l} := ⟨_, rfl⟩
  obtain ⟨hlawful, hplan⟩ := written_positions_partition storage written factors
  obtain ⟨-, h⟩ := hplan l.1 l.2
  refine ⟨l.1, l.2, hlawful.1 ⟨l.1, l.2⟩, (h.mem_summed 0 3).2 ⟨by decide, .ofChar 'i', rfl, rfl⟩,
    (h.mem_summed 1 2).2 ⟨by decide, .ofChar 'j', rfl, rfl⟩, (h.mem_freeSlots 4).2 ⟨.ofChar 'k', rfl, ?_⟩,
    (h.mem_used _).2 ?_, fun hk => absurd ((h.mem_used _).1 hk) ?_⟩ <;> decide

end Leaf

end TensorCalculus
