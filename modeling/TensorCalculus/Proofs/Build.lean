import TensorCalculus.Proofs.Leaf

/-!
# What the constructors of expressions establish

For each constructor a structure says, in terms of symbols, what its plan holds: `SumPlan.Matches`,
`ProductPlan.Contracts`, `BundlePlan.Bundles`, `SplitPlan.Splits`, `EmbedPlan.Embeds` and
`CoembedPlan.Merges`. Bundling and merging both take several indices together (`Gathers`), splitting and
embedding both put several in the place of one (`Scatters`). The constructors give an expression only
with such a plan. Free symbols are then different from each other, and there are no more of them than a
row has slots (`Expr.WellFormed`).
-/

namespace TensorCalculus

open TensorCalculus.Expr (freeAt freeWithout otherPositions)

/-- The plan passes the values of the left operand's indices to the right operand. -/
structure SumPlan.Matches (plan : SumPlan) (left right : List BoundIndex) : Prop where
  length_eq : left.length = right.length
  located : Located (symbols left) plan.permutation (symbols right)
  factor : ∀ b ∈ right, ∃ c ∈ left, c.index = b.index ∧ c.factor = b.factor

/-- The plan sums over the symbols that are free in both operands. -/
structure ProductPlan.Contracts (plan : ProductPlan) (left right : List BoundIndex) : Prop where
  free_eq : plan.free = without left (symbols right) ++ without right (symbols left)
  rank_le : plan.free.length ≤ maxRank
  slots : ∃ ps qs, plan.slots = ps.map (Side.left, ·) ++ qs.map (Side.right, ·) ∧
    Located (symbols left) ps (symbols (without left (symbols right))) ∧
    Located (symbols right) qs (symbols (without right (symbols left)))
  located_left : Located (symbols left) (plan.summed.map Prod.fst)
    (Occurrence.common (symbols left) (symbols right))
  located_right : Located (symbols right) (plan.summed.map Prod.snd)
    (Occurrence.common (symbols left) (symbols right))
  extents_eq : plan.extents = (Occurrence.common (symbols left) (symbols right)).map (extentOf left)
  dual : ∀ b ∈ left, ∀ c ∈ right, b.index = c.index → b.factor.isDualOf c.factor = true

/-- The indices `indices`, at the positions `taken`, are taken together to the one index `into`. -/
structure Gathers (inner free : List BoundIndex) (indices : List Index) (into : Index)
    (taken kept : List Nat) : Prop where
  ne_nil : indices ≠ []
  nodup : indices.Nodup
  fresh : into ∉ symbols (without inner indices)
  located : Located (symbols inner) taken indices
  kept_eq : kept = otherPositions inner.length taken
  symbols_free : symbols free = symbols (without inner indices) ++ [into]

/-- The indices `into` come in the place of the index `index` at `position`. -/
structure Scatters (inner free : List BoundIndex) (index : Index) (into : List Index)
    (position : Nat) : Prop where
  nodup : into.Nodup
  fresh : ∀ i ∈ into, i ∉ symbols (without inner [index])
  rank_le : free.length ≤ maxRank
  located : (symbols inner)[position]? = some index
  symbols_free : symbols free = symbols (without inner [index]) ++ into

/-- The plan takes the indices `indices` together to the index `into` over their tensor product. -/
structure BundlePlan.Bundles (plan : BundlePlan) (inner : List BoundIndex) (indices : List Index)
    (into : Index) : Prop extends Gathers inner plan.free indices into plan.bundled plan.kept where
  dims_eq : plan.dims = indices.map (extentOf inner)
  free_eq : ∃ factor dim, Concept.basedTensorProduct ((freeAt inner plan.bundled).map BoundIndex.factor) =
    .ok factor ∧ Count.product plan.dims = .ok dim ∧
    plan.free = without inner indices ++ [⟨into, factor, dim⟩]

/-- The plan takes the index `index` apart into the indices `into`. -/
structure SplitPlan.Splits (plan : SplitPlan) (inner : List BoundIndex) (index : Index)
    (into : List Index) : Prop extends Scatters inner plan.free index into plan.position where
  free_eq : ∃ b ∈ inner, b.index = index ∧ ∃ product factors,
    StructureClass.basedTensorProduct.uniqueOf b.factor = .ok product ∧
    product.factorList = .ok factors ∧ into.length = factors.length ∧
    List.Forall₂ (fun c d => c.dimension = .ok d) factors plan.dims ∧
    plan.free = without inner [index] ++ boundIndices into factors plan.dims

/-- The plan replaces the index `index` over a power by the indices `into` over its factor. -/
structure EmbedPlan.Embeds (plan : EmbedPlan) (inner : List BoundIndex) (index : Index)
    (into : List Index) (embedding : Embedding) : Prop
    extends Scatters inner plan.free index into plan.position where
  degree_eq : plan.degree = into.length
  embedding_eq : plan.embedding = embedding
  free_eq : ∃ b ∈ inner, b.index = index ∧ ∃ power base dim,
    StructureClass.basedPower.uniqueOf b.factor = .ok power ∧
    PowerKind.of? power.shape = some plan.kind ∧ power.degree = .ok into.length ∧
    power.powerFactor = .ok base ∧ base.dimension = .ok dim ∧
    plan.free = without inner [index] ++ into.map fun i => ⟨i, base, dim⟩

/-- The plan takes the indices `indices` over one space together to the index `into` over a power. -/
structure CoembedPlan.Merges (plan : CoembedPlan) (inner : List BoundIndex) (indices : List Index)
    (into : Index) (kind : PowerKind) (embedding : Embedding) : Prop
    extends Gathers inner plan.free indices into plan.merged plan.kept where
  kind_eq : plan.kind = kind
  embedding_eq : plan.embedding = embedding
  free_eq : ∃ base power dim, (∀ b ∈ freeAt inner plan.merged, b.factor = base) ∧
    Concept.basedPower kind base indices.length = .ok power ∧ power.dimension = .ok dim ∧
    plan.free = without inner indices ++ [⟨into, power, dim⟩]

/-! ### Free symbols stay different and few -/

section Free
variable {left right inner free : List BoundIndex} {indices into : List Index} {index : Index}

theorem nodup_without_append {is new : List Index} (hnodup : (symbols inner).Nodup) (hnew : new.Nodup)
    (hfresh : ∀ i ∈ new, i ∉ symbols (without inner is)) :
    (symbols (without inner is) ++ new).Nodup := by
  rw [List.nodup_append]
  exact ⟨nodup_without hnodup is, hnew, fun i hi j hj hij => hfresh j hj (hij ▸ hi)⟩

theorem ProductPlan.Contracts.nodup_free {plan : ProductPlan} (h : plan.Contracts left right)
    (hleft : (symbols left).Nodup) (hright : (symbols right).Nodup) : (symbols plan.free).Nodup := by
  rw [h.free_eq, symbols_append]
  refine nodup_without_append hleft (nodup_without hright _) fun i hi hi' => ?_
  exact (mem_symbols_without.1 hi).2 (mem_symbols_without.1 hi').1

theorem Gathers.nodup_free {taken kept : List Nat} (h : Gathers inner free indices index taken kept)
    (hnodup : (symbols inner).Nodup) : (symbols free).Nodup := by
  rw [h.symbols_free]
  exact nodup_without_append hnodup (List.nodup_singleton _) (by simpa using h.fresh)

/-- Taking indices together leaves no more of them. -/
theorem Gathers.length_free_le {taken kept : List Nat} (h : Gathers inner free indices index taken kept) :
    free.length ≤ inner.length := by
  obtain ⟨i, is, rfl⟩ := List.exists_cons_of_ne_nil h.ne_nil
  have hlt : (without inner (i :: is)).length < inner.length :=
    length_without_lt List.mem_cons_self (h.located.mem_names List.mem_cons_self)
  rw [← length_symbols, h.symbols_free, List.length_append, List.length_singleton, length_symbols]
  omega

theorem Scatters.nodup_free {position : Nat} (h : Scatters inner free index into position)
    (hnodup : (symbols inner).Nodup) : (symbols free).Nodup := by
  rw [h.symbols_free]
  exact nodup_without_append hnodup h.nodup h.fresh

theorem Scatters.length_into_le {position : Nat} (h : Scatters inner free index into position) :
    into.length ≤ maxRank := by
  have := h.rank_le
  rw [← length_symbols, h.symbols_free, List.length_append] at this
  omega

/-- The extents of the new symbols are the dimensions of the factors. -/
theorem SplitPlan.Splits.dims_eq {plan : SplitPlan} (h : plan.Splits inner index into)
    (hnodup : (symbols inner).Nodup) : plan.dims = into.map (extentOf plan.free) := by
  have hfree := h.nodup_free hnodup
  obtain ⟨b, -, -, product, factors, -, -, hlength, hdims, hplan⟩ := h.free_eq
  have hsymbols : symbols (boundIndices into factors plan.dims) = into :=
    symbols_boundIndices hlength hdims.length_eq
  have hextents : (symbols (boundIndices into factors plan.dims)).map (extentOf plan.free) = _ :=
    map_extentOf hfree fun c hc => by rw [hplan]; exact List.mem_append_right _ hc
  rw [hsymbols, dims_boundIndices hlength hdims.length_eq] at hextents
  exact hextents.symm

end Free

namespace Expr
variable {α : Type} {e left right inner : Expr α}

/-- The free symbols are different, and a row has a slot for each of them. -/
structure WellFormed (e : Expr α) : Prop where
  nodup : (symbols e.free).Nodup
  length_le : (symbols e.free).length ≤ maxRank

theorem WellFormed.of_gathers {indices : List Index} {into : Index} {taken kept : List Nat}
    (hinner : inner.WellFormed) (h : Gathers inner.free e.free indices into taken kept) : e.WellFormed := by
  refine ⟨h.nodup_free hinner.nodup, ?_⟩
  rw [length_symbols]
  exact Nat.le_trans h.length_free_le (length_symbols ▸ hinner.length_le)

theorem WellFormed.of_scatters {index : Index} {into : List Index} {position : Nat}
    (hinner : inner.WellFormed) (h : Scatters inner.free e.free index into position) : e.WellFormed :=
  ⟨h.nodup_free hinner.nodup, length_symbols ▸ h.rank_le⟩

theorem WellFormed.length_le_of_located {e : Expr α} (he : e.WellFormed) {ps : List Nat} {is : List Index}
    (h : Located (symbols e.free) ps is) (hnodup : is.Nodup) : is.length ≤ maxRank :=
  Nat.le_trans (h.length_le hnodup) he.length_le

/-- A row that holds all free symbols gives an operand its values. -/
theorem WellFormed.front_eq {e : Expr α} (he : e.WellFormed) {row ps : List Nat} {env : Assignment}
    (h : Holds row (symbols e.free) env ps) (hall : ∀ p < (symbols e.free).length, p ∈ ps) :
    front e.rank row = .ok ((symbols e.free).map env) := by
  rw [← h.front he.length_le hall, length_symbols]
  rfl

/-! ### Leaves and sums -/

theorem indexed_eq_ok {storage : Storage α} {written : List Index} {factors : List Concept}
    (h : Expr.indexed storage written factors = .ok e) :
    ∃ l, e = .leaf l ∧ l.storage = storage ∧ l.written = written ∧ l.Indexes factors := by
  unfold Expr.indexed at h
  obtain ⟨l, hl, h⟩ := bind_eq_ok.1 h
  cases h
  exact ⟨l, rfl, Leaf.of_eq_ok hl⟩

theorem matchOne_eq_ok {expected found : List BoundIndex} {b : BoundIndex} {p : Nat}
    (h : matchOne expected found b = .ok p) :
    ∃ c, expected[p]? = some c ∧ c.index = b.index ∧ c.factor = b.factor := by
  unfold matchOne at h
  split at h
  · cases h
  next position hposition =>
  split at h
  · cases h
  next c hc =>
  split at h
  · next hfactor =>
    cases h
    have hindex := findIdx?_index hposition
    rw [getElem?_symbols, hc] at hindex
    exact ⟨c, hc, by simpa using hindex, hfactor⟩
  · cases h

theorem matchFree_eq_ok {expected found : List BoundIndex} {used : List Index} {permutation : List Nat}
    (h : matchFree expected found = .ok permutation) :
    (⟨permutation, used⟩ : SumPlan).Matches expected found := by
  unfold matchFree at h
  split at h
  · cases h
  next hsame =>
  have hlength : expected.length = found.length := by
    by_contra hne
    simp [hne] at hsame
  have hmatch := mapM_eq_ok.1 h
  refine ⟨hlength, ?_, ?_⟩
  · rw [Located, symbols, symbols, List.forall₂_map_right_iff]
    refine hmatch.flip.imp fun p b hb => ?_
    obtain ⟨c, hc, hindex, -⟩ := matchOne_eq_ok hb
    rw [List.getElem?_map, hc, ← hindex]
    rfl
  · intro b hb
    obtain ⟨p, -, hp⟩ := forall₂_exists_right hmatch hb
    obtain ⟨c, hc, hindex, hfactor⟩ := matchOne_eq_ok hp
    exact ⟨c, List.mem_of_getElem? hc, hindex, hfactor⟩

theorem add_eq_ok {op : SumOp} (h : add op left right = .ok e) :
    ∃ plan, e = .sum op left right plan ∧ plan.Matches left.free right.free := by
  unfold add at h
  obtain ⟨⟨⟩, -, h⟩ := bind_eq_ok.1 h
  obtain ⟨permutation, hmatch, h⟩ := bind_eq_ok.1 h
  cases h
  exact ⟨_, rfl, matchFree_eq_ok hmatch⟩

/-! ### Products -/

/-- The position on the right of a left index. -/
def partnerOf (right : List BoundIndex) (b : BoundIndex) : Option Nat :=
  right.findIdx? fun c => c.index == b.index

theorem contractOne_eq_ok {free : List BoundIndex} {b : BoundIndex} {partner : Option Nat}
    (h : contractOne free b = .ok partner) :
    partner = partnerOf free b ∧
      ∀ q c, partner = some q → free[q]? = some c → b.factor.isDualOf c.factor = true := by
  unfold contractOne at h
  rw [partnerOf]
  split at h
  · next hnone =>
    cases h
    exact ⟨hnone.symm, by simp⟩
  next q hq =>
  split at h
  · next hget =>
    have := (List.findIdx?_eq_some_iff_getElem.1 hq).1
    rw [List.getElem?_eq_getElem this] at hget
    cases hget
  next c hc =>
  split at h
  · next hdual =>
    cases h
    refine ⟨hq.symm, fun q' c' hq' hc' => ?_⟩
    cases hq'
    rw [hc] at hc'
    cases hc'
    exact hdual
  · cases h

theorem partners_eq {left right : List BoundIndex} {partners : List (Option Nat)}
    (h : left.mapM (contractOne right) = .ok partners) : partners = left.map (partnerOf right) := by
  rw [eq_comm, ← List.forall₂_eq_eq_eq, List.forall₂_map_left_iff]
  exact (mapM_eq_ok.1 h).imp fun b y hy => (contractOne_eq_ok hy).1.symm

/-- The left indices with a partner on the right, with both positions. -/
def contractedRows (left right : List BoundIndex) : List (BoundIndex × Nat × Nat) :=
  left.zipIdx.filterMap fun p => (partnerOf right p.1).map fun q => (p.1, p.2, q)

section Rows
variable {left right : List BoundIndex}

theorem mem_contractedRows {b : BoundIndex} {p q : Nat} :
    (b, p, q) ∈ contractedRows left right ↔ left[p]? = some b ∧ partnerOf right b = some q := by
  simp only [contractedRows, List.mem_filterMap, Option.map_eq_some_iff, Prod.mk.injEq,
    List.mem_zipIdx_iff_getElem?]
  constructor
  · rintro ⟨⟨b', p'⟩, hp, q', hq, rfl, rfl, rfl⟩
    exact ⟨hp, hq⟩
  · rintro ⟨hp, hq⟩
    exact ⟨(b, p), hp, q, hq, rfl, rfl, rfl⟩

theorem partnerOf_eq_none {b : BoundIndex} : partnerOf right b = none ↔ b.index ∉ symbols right := by
  rw [← findIdx?_isSome, ← partnerOf]
  simp

theorem map_fst_contractedRows : (contractedRows left right).map Prod.fst =
    left.filter fun b => (symbols right).contains b.index := by
  have hrow : ∀ p : BoundIndex × Nat,
      ((partnerOf right p.1).map fun q => (p.1, p.2, q)).map Prod.fst =
        if (symbols right).contains p.1.index then some p.1 else none := by
    intro p
    by_cases hp : p.1.index ∈ symbols right
    · obtain ⟨q, hq⟩ := Option.ne_none_iff_exists'.1 fun h => partnerOf_eq_none.1 h hp
      simp [hq, hp]
    · simp [partnerOf_eq_none.2 hp, hp]
  rw [contractedRows, List.map_filterMap]
  simp only [hrow]
  rw [filterMap_ite, map_fst_filter_zipIdx fun b : BoundIndex => (symbols right).contains b.index]

theorem symbols_contractedRows : symbols ((contractedRows left right).map Prod.fst) =
    Occurrence.common (symbols left) (symbols right) := by
  rw [map_fst_contractedRows, symbols_filter]
  rfl

theorem located_contractedRows_left : Located (symbols left)
    ((contractedRows left right).map fun r => r.2.1) (Occurrence.common (symbols left) (symbols right)) := by
  rw [← symbols_contractedRows, symbols_map]
  refine located_map ?_
  rintro ⟨b, p, q⟩ hr
  rw [getElem?_symbols, (mem_contractedRows.1 hr).1]
  rfl

theorem located_contractedRows_right : Located (symbols right)
    ((contractedRows left right).map fun r => r.2.2) (Occurrence.common (symbols left) (symbols right)) := by
  rw [← symbols_contractedRows, symbols_map]
  refine located_map ?_
  rintro ⟨b, p, q⟩ hr
  exact findIdx?_index (mem_contractedRows.1 hr).2

/-- The right indices at no position of a row. -/
theorem all_contractedRows (hright : (symbols right).Nodup) {c : BoundIndex} {q : Nat}
    (hq : right[q]? = some c) :
    ((contractedRows left right).all fun r => r.2.2 != q) = !(symbols left).contains c.index := by
  have hc : (symbols right)[q]? = some c.index := by rw [getElem?_symbols, hq]; rfl
  rw [Bool.eq_iff_iff, List.all_eq_true]
  simp only [bne_iff_ne, ne_eq, Bool.not_eq_true', List.contains_eq_mem, decide_eq_false_iff_not]
  constructor
  · intro hall hmem
    obtain ⟨b, hb, hbc⟩ := mem_symbols.1 hmem
    obtain ⟨p, hp⟩ := List.getElem?_of_mem hb
    obtain ⟨q', hq'⟩ := Option.ne_none_iff_exists'.1 fun h =>
      partnerOf_eq_none.1 h (hbc ▸ List.mem_of_getElem? hc)
    have hlt := (List.getElem?_eq_some_iff.1 hc).1
    refine hall (b, p, q') (mem_contractedRows.2 ⟨hp, hq'⟩) ((List.getElem?_inj hlt hright).1 ?_).symm
    rw [hc, findIdx?_index hq', hbc]
  · rintro hnot ⟨b, p, q'⟩ hr rfl
    obtain ⟨hp, hq'⟩ := mem_contractedRows.1 hr
    have := hc.symm.trans (findIdx?_index hq')
    rw [Option.some.injEq] at this
    exact hnot (this ▸ index_mem_symbols (List.mem_of_getElem? hp))

/-- The rows of indices with their partners, read as the contracted and the remaining ones. -/
theorem zip_partners : (left.zip (left.map (partnerOf right))).zipIdx =
    left.zipIdx.map fun p => ((p.1, partnerOf right p.1), p.2) := by
  rw [← List.map_prod_left_eq_zip, List.zipIdx_map]
  rfl

theorem map_snd_contractedRows : (left.zip (left.map (partnerOf right))).zipIdx.filterMap
    (fun ((_, partner), p) => partner.map fun q => (p, q)) = (contractedRows left right).map Prod.snd := by
  rw [zip_partners, List.filterMap_map, contractedRows, List.map_filterMap]
  simp only [Option.map_map]
  rfl

theorem filterMap_partners : (left.zip (left.map (partnerOf right))).zipIdx.filterMap
    (fun ((b, partner), _) => partner.map fun _ => b) = (contractedRows left right).map Prod.fst := by
  rw [zip_partners, List.filterMap_map, contractedRows, List.map_filterMap]
  simp only [Option.map_map]
  rfl

theorem filterMap_isNone_partners : (left.zip (left.map (partnerOf right))).zipIdx.filterMap
    (fun ((b, partner), p) => if partner.isNone then some (b, Side.left, p) else none) =
      (left.zipIdx.filter fun p => !(symbols right).contains p.1.index).map
        fun p => (p.1, Side.left, p.2) := by
  have hnone : ∀ b : BoundIndex, (partnerOf right b).isNone = !(symbols right).contains b.index := by
    intro b
    rw [Bool.eq_iff_iff, Option.isNone_iff_eq_none, partnerOf_eq_none]
    simp
  rw [zip_partners, List.filterMap_map, ← filterMap_ite]
  simp only [Function.comp_def, hnone]

theorem filterMap_all_rows (hright : (symbols right).Nodup) : (right.zipIdx.filterMap fun (b, q) =>
    if ((contractedRows left right).map Prod.snd).all fun pair => pair.2 != q then some (b, Side.right, q)
    else none) =
      (right.zipIdx.filter fun p => !(symbols left).contains p.1.index).map
        fun p => (p.1, Side.right, p.2) := by
  rw [← filterMap_ite]
  refine List.filterMap_congr fun p hp => ?_
  simp only [List.all_map, Function.comp_def]
  rw [all_contractedRows hright (List.mem_zipIdx_iff_getElem?.1 hp)]

/-- Remaining indices with their positions. -/
theorem located_remaining {free : List BoundIndex} {is : List Index} : Located (symbols free)
    ((free.zipIdx.filter fun p => !is.contains p.1.index).map Prod.snd) (symbols (without free is)) := by
  rw [without, ← map_fst_filter_zipIdx fun b : BoundIndex => !is.contains b.index, symbols_map]
  refine located_map fun p hp => ?_
  rw [getElem?_symbols, List.mem_zipIdx_iff_getElem?.1 (List.mem_of_mem_filter hp)]
  rfl

end Rows

theorem mul_eq_ok (h : mul left right = .ok e) (hleft : (symbols left.free).Nodup)
    (hright : (symbols right.free).Nodup) :
    ∃ plan, e = .product left right plan ∧ plan.Contracts left.free right.free := by
  unfold mul at h
  obtain ⟨⟨⟩, -, h⟩ := bind_eq_ok.1 h
  obtain ⟨partners, hpartners, h⟩ := bind_eq_ok.1 h
  obtain rfl := partners_eq hpartners
  have hpartners := mapM_eq_ok.1 hpartners
  dsimp only at h
  rw [map_snd_contractedRows, filterMap_partners, filterMap_isNone_partners,
    filterMap_all_rows hright] at h
  obtain ⟨⟨⟩, hrank, h⟩ := bind_eq_ok.1 h
  obtain ⟨⟨⟩, -, h⟩ := bind_eq_ok.1 h
  cases h
  refine ⟨_, rfl, ?_, ?_, ?_, ?_, ?_, ?_, ?_⟩
  · simp only [List.map_append, List.map_map, Function.comp_def]
    rw [map_fst_filter_zipIdx fun b : BoundIndex => !(symbols right.free).contains b.index,
      map_fst_filter_zipIdx fun b : BoundIndex => !(symbols left.free).contains b.index]
    rfl
  · rw [List.length_map]
    exact checkRank_eq_ok.1 (mapError_eq_ok.1 hrank)
  · refine ⟨_, _, ?_, located_remaining, located_remaining⟩
    simp only [List.map_append, List.map_map, Function.comp_def]
  · simpa only [List.map_map, Function.comp_def] using located_contractedRows_left
  · simpa only [List.map_map, Function.comp_def] using located_contractedRows_right
  · show ((contractedRows left.free right.free).map Prod.fst).map BoundIndex.dim = _
    rw [← symbols_contractedRows, map_extentOf hleft]
    intro b hb
    rw [map_fst_contractedRows] at hb
    exact List.mem_of_mem_filter hb
  · intro b hb c hc hbc
    obtain ⟨partner, -, hpartner⟩ := forall₂_exists_right hpartners hb
    obtain ⟨rfl, hdual⟩ := contractOne_eq_ok hpartner
    obtain ⟨q, hq⟩ := Option.ne_none_iff_exists'.1 fun h =>
      partnerOf_eq_none.1 h (hbc ▸ index_mem_symbols hc)
    obtain ⟨r, hr⟩ := List.getElem?_of_mem hc
    have hsymbol : (symbols right.free)[r]? = some c.index := by rw [getElem?_symbols, hr]; rfl
    have hlt := (List.getElem?_eq_some_iff.1 hsymbol).1
    have hrq : r = q := (List.getElem?_inj hlt hright).1
      (by rw [hsymbol, findIdx?_index hq, hbc])
    exact hdual q c hq (hrq ▸ hr)

/-! ### Bundling and splitting -/

theorem checkFresh_eq_ok {released : List Index} {i : Index} : inner.checkFresh released i = .ok () ↔
    i ∉ symbols (without inner.free released) ∧ i ∉ inner.used := by
  have hclash : ((inner.freeSymbols.contains i && !released.contains i) || inner.used.contains i) = true ↔
      i ∈ symbols (without inner.free released) ∨ i ∈ inner.used := by
    simp [mem_symbols_without, freeSymbols]
  unfold checkFresh
  rw [← not_or, ← hclash]
  split
  · next h => exact ⟨nofun, fun h' => absurd h h'⟩
  · next h => exact ⟨fun _ => h, fun _ => rfl⟩

theorem bundleInto_cases {indices : List Index} {into : Index}
    (h : inner.bundleInto indices into = .ok e) (hnodup : (symbols inner.free).Nodup) :
    ∃ plan, e = .bundle inner plan ∧ into ∉ inner.used ∧ plan.Bundles inner.free indices into := by
  unfold bundleInto at h
  dsimp only at h
  split at h
  · cases h
  next hne =>
  obtain ⟨⟨⟩, hdistinct, h⟩ := bind_eq_ok.1 h
  obtain ⟨bundled, hbundled, h⟩ := bind_eq_ok.1 h
  obtain ⟨⟨⟩, hfresh, h⟩ := bind_eq_ok.1 h
  obtain ⟨factor, hfactor, h⟩ := bind_eq_ok.1 h
  obtain ⟨dim, hdim, h⟩ := bind_eq_ok.1 h
  cases h
  have hlocated := findAllFree_eq_ok (liftError_eq_ok.1 hbundled)
  obtain ⟨hfresh, hused⟩ := checkFresh_eq_ok.1 (liftError_eq_ok.1 hfresh)
  have hfree := freeAt_otherPositions hnodup hlocated
  refine ⟨_, rfl, hused, ⟨by simpa using hne, checkDistinct_eq_ok.1 (liftError_eq_ok.1 hdistinct), hfresh,
    hlocated, rfl, ?_⟩, dims_freeAt hnodup hlocated, factor, dim, mapError_eq_ok.1 hfactor,
    liftFault_eq_ok.1 hdim, congrArg (· ++ _) hfree⟩
  show symbols (freeAt inner.free (otherPositions inner.free.length bundled) ++ _) = _
  rw [hfree, symbols_append]
  rfl

theorem bundleInto_eq_ok {indices : List Index} {into : Index}
    (h : inner.bundleInto indices into = .ok e) (hnodup : (symbols inner.free).Nodup) :
    ∃ plan, e = .bundle inner plan ∧ plan.Bundles inner.free indices into := by
  obtain ⟨plan, he, -, hplan⟩ := bundleInto_cases h hnodup
  exact ⟨plan, he, hplan⟩

theorem splitInto_cases {index : Index} {into : List Index} (h : inner.splitInto index into = .ok e)
    (hnodup : (symbols inner.free).Nodup) : ∃ plan, e = .split inner plan ∧ (∀ i ∈ into, i ∉ inner.used) ∧
      plan.Splits inner.free index into := by
  unfold splitInto at h
  obtain ⟨position, hposition, h⟩ := bind_eq_ok.1 h
  dsimp only at h
  split at h
  swap
  · cases h
  next b hb =>
  split at h
  · cases h
  obtain ⟨product, hproduct, h⟩ := bind_eq_ok.1 h
  obtain ⟨factors, hfactors, h⟩ := bind_eq_ok.1 h
  split at h
  · cases h
  next hlength =>
  obtain ⟨⟨⟩, hdistinct, h⟩ := bind_eq_ok.1 h
  obtain ⟨⟨⟩, hfresh, h⟩ := bind_eq_ok.1 h
  obtain ⟨⟨⟩, hrank, h⟩ := bind_eq_ok.1 h
  obtain ⟨dims, hdims, h⟩ := bind_eq_ok.1 h
  cases h
  have hlocated := findFree_eq_ok hposition
  have hdims := (mapM_eq_ok.1 hdims).imp fun c d hd => mapError_eq_ok.1 hd
  have hlength := (not_not.1 hlength).symm
  have hfresh := fun i hi => checkFresh_eq_ok.1 (forM_eq_ok.1 hfresh i hi)
  refine ⟨_, rfl, fun i hi => (hfresh i hi).2, ⟨checkDistinct_eq_ok.1 hdistinct, fun i hi => (hfresh i hi).1,
    ?_, hlocated, ?_⟩, b, List.mem_of_getElem? hb, ?_, product, factors, mapError_eq_ok.1 hproduct,
    mapError_eq_ok.1 hfactors, hlength, hdims, ?_⟩
  · have hrank := checkRank_eq_ok.1 (mapError_eq_ok.1 hrank)
    show (freeWithout inner.free position ++ boundIndices into factors dims).length ≤ maxRank
    rwa [List.length_append, length_freeWithout hlocated, length_boundIndices hlength hdims.length_eq]
  · show symbols (freeWithout inner.free position ++ boundIndices into factors dims) = _
    rw [symbols_append, freeWithout_eq hnodup hlocated, symbols_boundIndices hlength hdims.length_eq]
  · rw [getElem?_symbols, hb] at hlocated
    simpa using hlocated
  · rw [← freeWithout_eq hnodup hlocated]
    rfl

theorem splitInto_eq_ok {index : Index} {into : List Index} (h : inner.splitInto index into = .ok e)
    (hnodup : (symbols inner.free).Nodup) :
    ∃ plan, e = .split inner plan ∧ plan.Splits inner.free index into := by
  obtain ⟨plan, he, -, hplan⟩ := splitInto_cases h hnodup
  exact ⟨plan, he, hplan⟩

/-! ### Powers -/

theorem embedInto_cases {index : Index} {into : List Index} {embedding : Embedding}
    (h : inner.embedInto index into embedding = .ok e) (hnodup : (symbols inner.free).Nodup) :
    ∃ plan, e = .embed inner plan ∧ (∀ i ∈ into, i ∉ inner.used) ∧
      plan.Embeds inner.free index into embedding := by
  unfold embedInto at h
  obtain ⟨position, hposition, h⟩ := bind_eq_ok.1 h
  dsimp only at h
  split at h
  swap
  · cases h
  next b hb =>
  split at h
  · cases h
  obtain ⟨power, hpower, h⟩ := bind_eq_ok.1 h
  split at h
  swap
  · cases h
  next kind hkind =>
  obtain ⟨degree, hdegree, h⟩ := bind_eq_ok.1 h
  split at h
  · cases h
  next hlength =>
  obtain ⟨⟨⟩, hdistinct, h⟩ := bind_eq_ok.1 h
  obtain ⟨⟨⟩, hfresh, h⟩ := bind_eq_ok.1 h
  obtain ⟨⟨⟩, hrank, h⟩ := bind_eq_ok.1 h
  obtain ⟨base, hbase, h⟩ := bind_eq_ok.1 h
  obtain ⟨dim, hdim, h⟩ := bind_eq_ok.1 h
  cases h
  obtain rfl := not_not.1 hlength
  have hlocated := findFree_eq_ok hposition
  have hfresh := fun i hi => checkFresh_eq_ok.1 (forM_eq_ok.1 hfresh i hi)
  refine ⟨_, rfl, fun i hi => (hfresh i hi).2, ⟨checkDistinct_eq_ok.1 hdistinct, fun i hi => (hfresh i hi).1,
    ?_, hlocated, ?_⟩, rfl, rfl, b, List.mem_of_getElem? hb, ?_, power, base, dim, mapError_eq_ok.1 hpower, hkind,
    mapError_eq_ok.1 hdegree, mapError_eq_ok.1 hbase, mapError_eq_ok.1 hdim, ?_⟩
  · have hrank := checkRank_eq_ok.1 (mapError_eq_ok.1 hrank)
    rwa [List.length_append, length_freeWithout hlocated, List.length_map]
  · rw [symbols_append, freeWithout_eq hnodup hlocated, symbols_map, List.map_id']
  · rw [getElem?_symbols, hb] at hlocated
    simpa using hlocated
  · rw [← freeWithout_eq hnodup hlocated]

theorem embedInto_eq_ok {index : Index} {into : List Index} {embedding : Embedding}
    (h : inner.embedInto index into embedding = .ok e) (hnodup : (symbols inner.free).Nodup) :
    ∃ plan, e = .embed inner plan ∧ plan.Embeds inner.free index into embedding := by
  obtain ⟨plan, he, -, hplan⟩ := embedInto_cases h hnodup
  exact ⟨plan, he, hplan⟩

theorem checkFactors_eq_ok {base : Concept} {bs : List BoundIndex} (h : checkFactors base bs = .ok ()) :
    ∀ b ∈ bs, b.factor = base := by
  intro b hb
  have hone := forM_eq_ok.1 h b hb
  unfold checkFactor at hone
  split at hone
  · next hfactor => exact hfactor
  · cases hone

theorem coembedInto_cases {indices : List Index} {into : Index} {kind : PowerKind}
    {embedding : Embedding} (h : inner.coembedInto indices into kind embedding = .ok e)
    (hnodup : (symbols inner.free).Nodup) : ∃ plan, e = .coembed inner plan ∧ into ∉ inner.used ∧
      plan.Merges inner.free indices into kind embedding := by
  unfold coembedInto at h
  dsimp only at h
  split at h
  · cases h
  next hne =>
  obtain ⟨⟨⟩, hdistinct, h⟩ := bind_eq_ok.1 h
  obtain ⟨merged, hmerged, h⟩ := bind_eq_ok.1 h
  obtain ⟨⟨⟩, hfresh, h⟩ := bind_eq_ok.1 h
  split at h
  swap
  · cases h
  next first rest hfirst =>
  obtain ⟨⟨⟩, hfactors, h⟩ := bind_eq_ok.1 h
  obtain ⟨power, hpower, h⟩ := bind_eq_ok.1 h
  obtain ⟨dim, hdim, h⟩ := bind_eq_ok.1 h
  cases h
  have hlocated := findAllFree_eq_ok (liftError_eq_ok.1 hmerged)
  have hfactors := checkFactors_eq_ok (liftError_eq_ok.1 hfactors)
  rw [hlocated.length_eq] at hpower
  obtain ⟨hfresh, hused⟩ := checkFresh_eq_ok.1 (liftError_eq_ok.1 hfresh)
  have hfree := freeAt_otherPositions hnodup hlocated
  refine ⟨_, rfl, hused, ⟨by simpa using hne, checkDistinct_eq_ok.1 (liftError_eq_ok.1 hdistinct), hfresh,
    hlocated, rfl, ?_⟩, rfl, rfl, first.factor, power, dim, ?_, mapError_eq_ok.1 hpower, ?_,
    congrArg (· ++ _) hfree⟩
  · show symbols (freeAt inner.free (otherPositions inner.free.length merged) ++ _) = _
    rw [hfree, symbols_append]
    rfl
  · intro b hb
    rw [hfirst] at hb
    rcases List.mem_cons.1 hb with rfl | hb
    · rfl
    · exact hfactors b hb
  · exact mapError_eq_ok.1 (mapError_eq_ok.1 hdim)

theorem coembedInto_eq_ok {indices : List Index} {into : Index} {kind : PowerKind}
    {embedding : Embedding} (h : inner.coembedInto indices into kind embedding = .ok e)
    (hnodup : (symbols inner.free).Nodup) :
    ∃ plan, e = .coembed inner plan ∧ plan.Merges inner.free indices into kind embedding := by
  obtain ⟨plan, he, -, hplan⟩ := coembedInto_cases h hnodup
  exact ⟨plan, he, hplan⟩

end Expr

end TensorCalculus
