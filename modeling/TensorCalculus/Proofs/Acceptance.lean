import TensorCalculus.Proofs.Dual
import TensorCalculus.Proofs.Invariant

/-!
# Which arrays, sums and products are accepted

An array may be indexed with symbols of which none stands there more than twice, and those that stand there
twice on dual factors (`indexed_ok`). The checks of sums and products come down to
statements about the free indices: a sum is accepted if its operands have the same free indices in some
order (`Sound.add_ok_iff`), a product if what is free in both ranges over dual factors and not too many
indices are left (`Sound.mul_ok_iff`). For both, no symbol that one operand has summed over may be free in
the other (`Compatible`).
-/

namespace TensorCalculus.Expr
variable {α : Type} {e left right : Expr α}

theorem checkReuse_ok_iff : checkReuse left right = .ok () ↔ Compatible left right := by
  refine ⟨checkReuse_eq_ok, fun h => ?_⟩
  have hleft : Occurrence.common left.used right.freeSymbols = [] :=
    List.filter_eq_nil_iff.2 fun i hi => by simpa [freeSymbols] using h.left_used i hi
  have hright : Occurrence.common right.used left.freeSymbols = [] :=
    List.filter_eq_nil_iff.2 fun i hi => by simpa [freeSymbols] using h.right_used i hi
  rw [checkReuse, hleft, hright]
  rfl

theorem Compatible.symm (h : Compatible left right) : Compatible right left := ⟨h.right_used, h.left_used⟩

/-! ### Sums -/

section Sum
variable {bs cs : List BoundIndex}

/-- An index is matched with the one that has its symbol. -/
theorem matchOne_eq {b c : BoundIndex} (hbs : (symbols bs).Nodup) (hb : b ∈ bs) (hindex : b.index = c.index) :
    ∃ p, matchOne bs cs c =
      if b.factor = c.factor then .ok p else .error (.factorMismatch c.index b.factor c.factor) := by
  obtain ⟨p, hp⟩ := Option.isSome_iff_exists.1 (findIdx?_isSome.2 (hindex ▸ index_mem_symbols hb))
  obtain ⟨b', hb', hindex'⟩ := Option.map_eq_some_iff.1 (getElem?_symbols ▸ findIdx?_index hp)
  obtain rfl : b = b' := List.inj_on_of_nodup_map hbs hb (List.mem_of_getElem? hb') (hindex.trans hindex'.symm)
  exact ⟨p, by rw [matchOne, hp]; dsimp only; rw [hb']⟩

theorem matchOne_ok {b c : BoundIndex} (hbs : (symbols bs).Nodup) (hb : b ∈ bs) (hindex : b.index = c.index)
    (hfactor : b.factor = c.factor) : ∃ p, matchOne bs cs c = .ok p := by
  obtain ⟨p, hp⟩ := matchOne_eq hbs hb hindex
  exact ⟨p, hp.trans (if_pos hfactor)⟩

theorem matchFree_ok (hbs : (symbols bs).Nodup) (h : bs.Perm cs) : ∃ ps, matchFree bs cs = .ok ps := by
  have hsame : Occurrence.sameElements (symbols bs) (symbols cs) = true := by
    have hperm : (symbols bs).Perm (symbols cs) := h.map _
    simp [Occurrence.sameElements, hperm.mem_iff]
  rw [matchFree, if_neg (by simp [h.length_eq, hsame])]
  exact mapM_ok fun b hb => matchOne_ok hbs (h.mem_iff.2 hb) rfl rfl

/-- Lists of free indices with the same symbols, factors and dimensions are the same up to their order. -/
theorem perm_of_matches {plan : SumPlan} (h : plan.Matches bs cs) (hcs : (symbols cs).Nodup)
    (hdims : ∀ b ∈ bs, b.factor.dimension = .ok b.dim)
    (hdims' : ∀ c ∈ cs, c.factor.dimension = .ok c.dim) : bs.Perm cs := by
  have hsub : cs ⊆ bs := by
    intro c hc
    obtain ⟨b, hb, hindex, hfactor⟩ := h.factor c hc
    have hdim : b.dim = c.dim := by
      have := hdims b hb
      rw [hfactor, hdims' c hc] at this
      exact (Except.ok.inj this).symm
    have hbc : b = c := by
      cases b
      cases c
      simp_all
    exact hbc ▸ hb
  exact ((hcs.of_map _).subperm hsub).perm_of_length_le h.length_eq.le |>.symm

theorem add_free {op : SumOp} (h : Expr.add op left right = .ok e) : e.free = left.free := by
  obtain ⟨plan, rfl, -⟩ := add_eq_ok h
  rfl

theorem Sound.add_ok_iff (hleft : left.Sound) (hright : right.Sound) (op : SumOp) :
    (∃ e, Expr.add op left right = .ok e) ↔ Compatible left right ∧ left.free.Perm right.free := by
  constructor
  · rintro ⟨e, h⟩
    obtain ⟨plan, -, hplan⟩ := add_eq_ok h
    exact ⟨(add_used h).1, perm_of_matches hplan hright.nodup hleft.dimension hright.dimension⟩
  · rintro ⟨hcompatible, hperm⟩
    obtain ⟨ps, hps⟩ := matchFree_ok hleft.nodup hperm
    exact exists_bind_ok (checkReuse_ok_iff.2 hcompatible) (exists_bind_ok hps ⟨_, rfl⟩)

end Sum

/-! ### Products -/

/-- Indices of the two lists with one symbol range over dual factors. -/
def DualWhereShared (left right : List BoundIndex) : Prop :=
  ∀ b ∈ left, ∀ c ∈ right, b.index = c.index → b.factor.isDualOf c.factor = true

theorem DualWhereShared.symm {bs cs : List BoundIndex} (h : DualWhereShared bs cs) :
    DualWhereShared cs bs := by
  intro c hc b hb hindex
  have hdual := Concept.isDualOf_iff.1 (h b hb c hc hindex.symm)
  rw [Concept.isDualOf_iff, ← hdual, Concept.dual_dual]

theorem contractOne_ok {bs : List BoundIndex} {b : BoundIndex}
    (h : ∀ c ∈ bs, b.index = c.index → b.factor.isDualOf c.factor = true) :
    ∃ partner, contractOne bs b = .ok partner := by
  unfold contractOne
  split
  · exact ⟨_, rfl⟩
  next q hq =>
  split
  · exact ⟨_, rfl⟩
  next c hc =>
  have hindex : c.index = b.index := by
    have := findIdx?_index hq
    rw [getElem?_symbols, hc] at this
    exact Option.some.inj this
  exact ⟨_, if_pos (h c (List.mem_of_getElem? hc) hindex.symm)⟩

theorem length_filter_zipIdx {bs : List BoundIndex} {is : List Index} :
    (bs.zipIdx.filter fun p => !is.contains p.1.index).length = (without bs is).length := by
  rw [without, ← map_fst_filter_zipIdx fun b : BoundIndex => !is.contains b.index, List.length_map]

theorem mul_free (h : left.mul right = .ok e) (hleft : (symbols left.free).Nodup)
    (hright : (symbols right.free).Nodup) :
    e.free = without left.free (symbols right.free) ++ without right.free (symbols left.free) := by
  obtain ⟨plan, rfl, hplan⟩ := mul_eq_ok h hleft hright
  exact hplan.free_eq

theorem WellFormed.mul_ok (hleft : left.WellFormed) (hright : right.WellFormed)
    (hcompatible : Compatible left right) (hdual : DualWhereShared left.free right.free)
    (hrank : (without left.free (symbols right.free)).length +
      (without right.free (symbols left.free)).length ≤ maxRank) :
    ∃ e, left.mul right = .ok e := by
  have hcontracted : (Occurrence.common (symbols left.free) (symbols right.free)).length ≤ maxRank :=
    (List.length_filter_le _ _).trans hleft.length_le
  obtain ⟨partners, hpartners⟩ := mapM_ok fun b hb => contractOne_ok (hdual b hb)
  obtain rfl := partners_eq hpartners
  unfold mul
  refine exists_bind_ok (checkReuse_ok_iff.2 hcompatible) (exists_bind_ok hpartners ?_)
  dsimp only
  rw [map_snd_contractedRows, filterMap_partners, filterMap_isNone_partners,
    filterMap_all_rows hright.nodup]
  refine exists_bind_ok (mapError_eq_ok.2 (checkRank_eq_ok.2 ?_))
    (exists_bind_ok (mapError_eq_ok.2 (checkRank_eq_ok.2 ?_)) ⟨_, rfl⟩)
  · rw [List.length_append, List.length_map, List.length_map, length_filter_zipIdx, length_filter_zipIdx]
    exact hrank
  · rw [List.length_map, ← length_symbols, symbols_contractedRows]
    exact hcontracted

theorem Sound.mul_ok_iff (hleft : left.Sound) (hright : right.Sound) :
    (∃ e, left.mul right = .ok e) ↔ Compatible left right ∧ DualWhereShared left.free right.free ∧
      (without left.free (symbols right.free)).length +
        (without right.free (symbols left.free)).length ≤ maxRank := by
  constructor
  · rintro ⟨e, h⟩
    have hcompatible := (mul_used h).1
    obtain ⟨plan, rfl, hplan⟩ := mul_eq_ok h hleft.nodup hright.nodup
    refine ⟨hcompatible, hplan.dual, ?_⟩
    rw [← List.length_append, ← hplan.free_eq]
    exact hplan.rank_le
  · rintro ⟨hcompatible, hdual, hrank⟩
    exact hleft.toWellFormed.mul_ok hright.toWellFormed hcompatible hdual hrank

/-! ### Arrays -/

section Leaf
variable {written : List Index} {factors : List Concept} {dims : List Nat}

theorem factorDims_ok (hlength : written.length = factors.length) (hrank : written.length ≤ maxRank)
    (hdims : List.Forall₂ (fun c d => c.dimension = .ok d) factors dims) :
    factorDims written factors = .ok dims := by
  have hmapM : factors.mapM (fun c => (liftM c.dimension : Except ExprError Nat)) = .ok dims :=
    mapM_eq_ok.2 (hdims.imp fun c d hd => mapError_eq_ok.2 hd)
  have hcheck : (liftM (checkRank written.length) : Except ExprError Unit) = .ok () :=
    mapError_eq_ok.2 (checkRank_eq_ok.2 hrank)
  unfold factorDims
  dsimp only
  rw [if_neg (not_not.2 hlength), hcheck, ok_bind, hmapM]

/-- A symbol that is written twice stands on factors dual to each other. -/
def DualWhereRepeated (written : List Index) (factors : List Concept) : Prop :=
  ∀ (p q : Nat) (i : Index) (c d : Concept), p < q → written[p]? = some i → written[q]? = some i →
    factors[p]? = some c → factors[q]? = some d → c.isDualOf d = true

theorem DualWhereRepeated.of_nodup (h : written.Nodup) : DualWhereRepeated written factors := by
  intro p q i c d hlt hp hq _ _
  obtain ⟨hlp, rfl⟩ := List.getElem?_eq_some_iff.1 hp
  obtain ⟨hlq, hget⟩ := List.getElem?_eq_some_iff.1 hq
  exact absurd (h.getElem_inj_iff.1 hget) (by omega)

theorem pairAt_ok {slot : Nat} {i : Index} (h : DualWhereRepeated written factors)
    (hslot : written[slot]? = some i) : ∃ pair, pairAt written factors slot i = .ok pair := by
  unfold pairAt
  split
  · exact ⟨_, rfl⟩
  next first hfirst =>
  obtain ⟨hlt, hget, -⟩ := List.findIdx?_eq_some_iff_getElem.1 hfirst
  have hfirst : first < slot ∧ written[first]? = some i := by
    rw [List.length_take] at hlt
    rw [List.getElem_take, beq_iff_eq] at hget
    exact ⟨by omega, List.getElem?_eq_some_iff.2 ⟨by omega, hget⟩⟩
  split
  · next c d hc hd => exact ⟨_, if_pos (h first slot i c d hfirst.1 hfirst.2 hslot hc hd)⟩
  · exact ⟨_, rfl⟩

/-- An array may be indexed with at most two of each symbol, if they stand on dual factors. -/
theorem indexed_ok (storage : Storage α) (hlength : written.length = factors.length)
    (hrank : written.length ≤ maxRank)
    (hdims : List.Forall₂ (fun c d => c.dimension = .ok d) factors dims)
    (hcount : ∀ i, written.count i ≤ 2) (hdual : DualWhereRepeated written factors) :
    ∃ e, Expr.indexed storage written factors = .ok e := by
  have hover : Occurrence.overused written = [] := by
    simp only [Occurrence.overused, List.map_eq_nil_iff, List.filter_eq_nil_iff, decide_eq_true_eq]
    intro i _ hi
    exact absurd (hcount i) (by omega)
  obtain ⟨pairs, hpairs⟩ : ∃ pairs, (written.zipIdx.filter fun p =>
      (Occurrence.occurring 2 written).contains p.1).mapM (fun p => pairAt written factors p.2 p.1) =
        .ok pairs := by
    refine mapM_ok fun p hp => pairAt_ok hdual ?_
    exact List.mem_zipIdx_iff_getElem?.1 (List.mem_of_mem_filter hp)
  have hextents : ((pairs.filterMap id).filterMap fun p => dims[p.1]?).length ≤ maxRank := by
    have hall := (mapM_eq_ok.1 hpairs).length_eq
    have hfilter := List.length_filter_le
      (fun p : Index × Nat => (Occurrence.occurring 2 written).contains p.1) written.zipIdx
    rw [List.length_zipIdx] at hfilter
    exact ((List.length_filterMap_le _ _).trans (List.length_filterMap_le _ _)).trans (by omega)
  have hcheck : (liftM (checkRank ((pairs.filterMap id).filterMap fun p => dims[p.1]?).length) :
      Except ExprError Unit) = .ok () := mapError_eq_ok.2 (checkRank_eq_ok.2 hextents)
  unfold Expr.indexed Leaf.of summedPairs
  rw [factorDims_ok hlength hrank hdims, ok_bind, hover]
  dsimp only
  rw [hpairs, ok_bind, pure_bind, hcheck]
  exact ⟨_, rfl⟩

end Leaf

end TensorCalculus.Expr
