import TensorCalculus.Proofs.Dual
import TensorCalculus.Proofs.InRange

/-!
# Evaluation never stops

An expression over arrays that are all there has a component at every multi-index of its free indices
(`Expr.component_ok`): no access leaves an array or a row of slots, nothing is divided by zero, and no
count overflows. Each kind of expression is total in this sense if its operands are
(`Expr.Total`), because its plan hands them values in range. `Expr.Evaluable` has this and what else each
constructor keeps, and it holds of all that was made over such arrays (`Expr.Built.evaluable`).
-/

namespace TensorCalculus

/-- A sum has a value if each of its terms does. -/
theorem sumOver_ok {α : Type} [Scalar α] {names : List Index} {extent : Index → Nat}
    {f : Assignment → Checked α} {env : Assignment}
    (h : ∀ values, Box.InBox values (names.map extent) → ∃ x, f (env.extend names values) = .ok x) :
    ∃ x, sumOver names (names.map extent) f env = .ok x := by
  unfold sumOver
  split
  · next hnil =>
    obtain rfl := List.isEmpty_iff.1 hnil
    exact h [] .nil
  · refine foldlM_ok _ fun values hvalues sum => ?_
    obtain ⟨x, hx⟩ := h values (Box.mem_multiIndices.1 hvalues)
    exact exists_bind_ok hx ⟨_, rfl⟩

theorem sumOver_congr {α : Type} [Scalar α] {names : List Index} {extent : Index → Nat}
    {f g : Assignment → Checked α} {env : Assignment}
    (h : ∀ values, Box.InBox values (names.map extent) →
      f (env.extend names values) = g (env.extend names values)) :
    sumOver names (names.map extent) f env = sumOver names (names.map extent) g env := by
  unfold sumOver
  split
  · next hnil =>
    obtain rfl := List.isEmpty_iff.1 hnil
    exact h [] .nil
  · refine foldlM_congr 0 fun values hvalues sum => ?_
    rw [h values (Box.mem_multiIndices.1 hvalues)]

/-- The two positions of an index that is summed in an array have the same extent. -/
theorem Leaf.Indexes.dim_eq_extentOf {α : Type} {l : Leaf α} {factors : List Concept}
    (h : l.Indexes factors) (hsized : ∀ p ∈ factors.zip l.dims, Concept.Sized p.1 p.2) {b : BoundIndex}
    (hb : b ∈ boundIndices l.written factors l.dims) (hrepeated : b.index ∈ repeatedSymbols l.written) :
    b.dim = extentOf (boundIndices l.written factors l.dims) b.index := by
  obtain ⟨p, hwritten, hfactor, hdim⟩ := mem_boundIndices hb
  have hpaired : ∀ pair ∈ l.summed, ∃ i, PairedAt l.written factors i pair ∧
      l.dims[pair.1]? = some (extentOf (boundIndices l.written factors l.dims) i) := by
    intro pair hpair
    obtain ⟨i, -, hi⟩ := forall₂_exists_right h.pairs.flip hpair
    exact ⟨i, hi, extentOf_boundIndices h.arity h.dimension.length_eq hi.first hi.least⟩
  rcases h.covers p (List.getElem?_eq_some_iff.1 hwritten).1 with hp | hp | hp
  · obtain ⟨i, hfree, hi⟩ := h.located.exists_symbol hp
    cases hwritten.symm.trans hi
    exact absurd hrepeated (h.not_mem_repeated hfree)
  · obtain ⟨pair, hpair, rfl⟩ := List.mem_map.1 hp
    obtain ⟨i, hi, hextent⟩ := hpaired pair hpair
    cases hwritten.symm.trans hi.first
    exact Option.some.inj (hdim.symm.trans hextent)
  · obtain ⟨pair, hpair, rfl⟩ := List.mem_map.1 hp
    obtain ⟨i, hi, hextent⟩ := hpaired pair hpair
    cases hwritten.symm.trans hi.second
    obtain ⟨left, right, hleft, hright, hdual⟩ := hi.dual
    have hsizedLeft := sized_of_getElem? hsized hleft hextent
    have hsizedRight := sized_of_getElem? hsized hright hdim
    exact ((hsizedLeft.of_isDualOf hdual).unique hsizedRight.dimension_eq).symm

namespace Expr
variable {α : Type} [Scalar α] {m : Memory α} {left right inner : Expr α}

/-- There is a component at all values in range. -/
def Total (m : Memory α) (e : Expr α) : Prop :=
  ∀ env, InRange e.free env → ∃ x, e.componentAt m env = .ok x

theorem total_leaf {l : Leaf α} {factors : List Concept} (h : l.Indexes factors)
    (hfills : l.storage.Fills m factors) : (Expr.leaf l).Total m := by
  intro env henv
  have hsized := sized_zip h.dimension fun c hc => (hfills.based c hc).sized
  rw [componentAt_leaf m env h]
  refine sumOver_ok fun values hvalues => ?_
  have hrange : InRange (boundIndices l.written factors l.dims)
      (env.extend (repeatedSymbols l.written) values) := by
    intro b hb
    by_cases hi : b.index ∈ repeatedSymbols l.written
    · rw [h.dim_eq_extentOf hsized hb hi]
      exact extend_lt h.nodup_repeated hvalues hi
    · rw [Assignment.extend_of_not_mem hi]
      refine henv b ?_
      show b ∈ l.free
      rw [h.free_eq]
      exact mem_without.2 ⟨hb, hi⟩
  have hbox := inBox_iff_inRange.2 hrange
  rw [h.symbols_bound, dims_boundIndices h.arity h.dimension.length_eq] at hbox
  have hsize : Box.size l.dims = l.storage.count := by
    rw [hfills.count_eq, Concept.map_extent h.dimension]
  have hlimit : Box.size l.dims ≤ Count.limit := hsize ▸ Nat.le_of_lt hfills.count_lt
  exact exists_bind_ok (Box.flatten_eq hbox hlimit)
    (Memory.read_ok hfills.valid (hsize ▸ hbox.position_lt))

theorem total_evaluated {free : List BoundIndex} {array : OwnedArray α}
    (hlimit : Box.size (free.map BoundIndex.dim) ≤ Count.limit)
    (hsize : array.components.size = Box.size (free.map BoundIndex.dim)) :
    (Expr.evaluated free array).Total m := by
  intro env henv
  have hbox : Box.InBox ((symbols free).map env) (free.map BoundIndex.dim) := inBox_iff_inRange.2 henv
  have hlt := hbox.position_lt
  rw [← hsize] at hlt
  rw [componentAt_evaluated]
  refine exists_bind_ok (Box.flatten_eq hbox hlimit) ⟨array.components[Box.position _ _], entry_eq_ok.2 ?_⟩
  rw [OwnedArray.toList, Array.getElem?_toList, Array.getElem?_eq_getElem hlt]

theorem Total.add {op : SumOp} {e : Expr α} (hleft : left.Sound) (hright : right.Sound)
    (h : Expr.add op left right = .ok e) (hl : left.Total m) (hr : right.Total m) : e.Total m := by
  obtain ⟨plan, rfl, hplan⟩ := add_eq_ok h
  intro env henv
  obtain ⟨x, hx⟩ := hl env henv
  obtain ⟨y, hy⟩ := hr env
    ((hplan.inRange_iff hleft.nodup hright.nodup hleft.dimension hright.dimension).1 henv)
  rw [componentAt_sum m env hplan hleft.toWellFormed]
  exact exists_bind_ok hx (exists_bind_ok hy (by cases op <;> exact ⟨_, rfl⟩))

theorem total_scaled {op : ScaleOp} {scalar : α} (hinner : inner.Total m) :
    (Expr.scaled op inner scalar).Total m := by
  intro env henv
  obtain ⟨x, hx⟩ := hinner env henv
  rw [componentAt_scaled]
  exact exists_bind_ok hx (by cases op <;> exact ⟨_, rfl⟩)

omit [Scalar α] in
/-- A symbol that is free in both operands of a product has the same extent in both. -/
theorem extentOf_eq_of_contracts {plan : ProductPlan} (h : plan.Contracts left.free right.free)
    (hwf : left.WellFormed) (hwf' : right.WellFormed)
    (hdims : ∀ b ∈ left.free, b.factor.dimension = .ok b.dim)
    (hdims' : ∀ b ∈ right.free, b.factor.dimension = .ok b.dim) {i : Index}
    (hi : i ∈ Occurrence.common (symbols left.free) (symbols right.free)) :
    extentOf left.free i = extentOf right.free i := by
  obtain ⟨hleft, hright⟩ := Occurrence.mem_common.1 hi
  obtain ⟨b, hb, rfl⟩ := mem_symbols.1 hleft
  obtain ⟨c, hc, hindex⟩ := mem_symbols.1 hright
  have hdual := (Concept.dimension_of_isDualOf (h.dual b hb c hc hindex.symm)).1 (hdims b hb)
  rw [extentOf_index hwf.nodup hb, ← hindex, extentOf_index hwf'.nodup hc]
  exact Except.ok.inj (hdual.symm.trans (hdims' c hc))

omit [Scalar α] in
/-- A product hands both operands values in range. -/
theorem inRange_of_contracts {plan : ProductPlan} (h : plan.Contracts left.free right.free)
    (hwf : left.WellFormed) (hwf' : right.WellFormed)
    (hdims : ∀ b ∈ left.free, b.factor.dimension = .ok b.dim)
    (hdims' : ∀ b ∈ right.free, b.factor.dimension = .ok b.dim) {env : Assignment}
    (henv : InRange plan.free env) {values : List Nat}
    (hvalues : Box.InBox values
      ((Occurrence.common (symbols left.free) (symbols right.free)).map (extentOf left.free))) :
    InRange left.free (env.extend (Occurrence.common (symbols left.free) (symbols right.free)) values) ∧
      InRange right.free (env.extend (Occurrence.common (symbols left.free) (symbols right.free)) values) := by
  have hfree : InRange (without left.free (symbols right.free) ++ without right.free (symbols left.free))
      env := h.free_eq ▸ henv
  have hnodup : (Occurrence.common (symbols left.free) (symbols right.free)).Nodup := hwf.nodup.filter _
  constructor
  · refine InRange.extend hwf.nodup hnodup (fun b hb hi => hfree b ?_) hvalues
    refine List.mem_append_left _ (mem_without.2 ⟨hb, fun hi' => hi ?_⟩)
    exact Occurrence.mem_common.2 ⟨mem_symbols.2 ⟨b, hb, rfl⟩, hi'⟩
  · -- one counter serves both operands
    rw [List.map_congr_left fun i hi => extentOf_eq_of_contracts h hwf hwf' hdims hdims' hi] at hvalues
    refine InRange.extend hwf'.nodup hnodup (fun b hb hi => hfree b ?_) hvalues
    refine List.mem_append_right _ (mem_without.2 ⟨hb, fun hi' => hi ?_⟩)
    exact Occurrence.mem_common.2 ⟨hi', mem_symbols.2 ⟨b, hb, rfl⟩⟩

theorem Total.mul {e : Expr α} (hleft : left.Sound) (hright : right.Sound) (h : left.mul right = .ok e)
    (hl : left.Total m) (hr : right.Total m) : e.Total m := by
  obtain ⟨plan, rfl, hplan⟩ := mul_eq_ok h hleft.nodup hright.nodup
  intro env henv
  rw [componentAt_product m env hplan hleft.toWellFormed hright.toWellFormed]
  refine sumOver_ok fun values hvalues => ?_
  obtain ⟨hrange, hrange'⟩ := inRange_of_contracts hplan hleft.toWellFormed hright.toWellFormed
    hleft.dimension hright.dimension henv hvalues
  obtain ⟨x, hx⟩ := hl _ hrange
  obtain ⟨y, hy⟩ := hr _ hrange'
  exact exists_bind_ok hx (exists_bind_ok hy ⟨_, rfl⟩)

omit [Scalar α] in
/-- Values for the indices that a plan takes away leave the operand's indices in range. -/
theorem inRange_extend_inner {free new : List BoundIndex} {is : List Index} {env : Assignment}
    {values : List Nat} (hinner : inner.WellFormed) (hfree : free = without inner.free is ++ new)
    (henv : InRange free env) (his : is.Nodup) (h : Box.InBox values (is.map (extentOf inner.free))) :
    InRange inner.free (env.extend is values) := by
  refine InRange.extend hinner.nodup his (fun b hb hi => henv b ?_) h
  rw [hfree]
  exact List.mem_append_left _ (mem_without.2 ⟨hb, hi⟩)

/-! In range each of the remaining nodes reads its operand at values in range, which are found from the
free indices of the operand alone. -/

section Reads
variable {env : Assignment}

theorem componentAt_bundle_inRange {plan : BundlePlan} {indices : List Index} {into : Index}
    (h : plan.Bundles inner.free indices into) (hwf : inner.WellFormed)
    (hsized : ∀ b ∈ inner.free, b.factor.Sized b.dim) (henv : InRange plan.free env) :
    InRange inner.free
        (env.extend indices (Box.multiIndex (indices.map (extentOf inner.free)) (env into))) ∧
      (Expr.bundle inner plan).componentAt m env =
        inner.componentAt m
          (env.extend indices (Box.multiIndex (indices.map (extentOf inner.free)) (env into))) := by
  obtain ⟨factor, dim, hfree, -, hsize⟩ := h.sized hwf.nodup hsized
  have hlt : env into < dim := henv ⟨into, factor, dim⟩ (by simp [hfree])
  -- the index that takes them together has a value, so none of the extents is zero
  have hpos : ∀ d ∈ indices.map (extentOf inner.free), 0 < d := Box.pos_of_size_pos (by omega)
  refine ⟨inRange_extend_inner hwf hfree henv h.nodup (Box.multiIndex_inBox hpos _), ?_⟩
  rw [componentAt_bundle m env h hwf, Box.digits_eq hpos]
  rfl

theorem componentAt_split_inRange {plan : SplitPlan} {index : Index} {into : List Index}
    (h : plan.Splits inner.free index into) (hwf : inner.WellFormed)
    (hsized : ∀ b ∈ inner.free, b.factor.Sized b.dim) (henv : InRange plan.free env) :
    InRange inner.free (env.extend [index] [Box.position (into.map env) plan.dims]) ∧
      (Expr.split inner plan).componentAt m env =
        inner.componentAt m (env.extend [index] [Box.position (into.map env) plan.dims]) := by
  obtain ⟨b, hb, rfl, hsize, hlimit, factors, hfree, -⟩ := h.sized hsized
  have hdims := h.dims_eq hwf.nodup
  have hbox : Box.InBox (into.map env) plan.dims := by
    rw [hdims]
    refine InRange.inBox henv (h.nodup_free hwf.nodup) fun i hi => ?_
    rw [h.symbols_free]
    exact List.mem_append_right _ hi
  have hlt := hbox.position_lt
  rw [hsize] at hlt
  constructor
  · refine inRange_extend_inner hwf hfree henv (List.nodup_singleton _) ?_
    rw [List.map_singleton, extentOf_index hwf.nodup hb]
    exact .cons hlt .nil
  · rw [componentAt_split m env h hwf, ← hdims, Box.flatten_eq hbox (by omega)]
    rfl

/-- A tuple that repeats an entry is not read, any other at its rank. -/
theorem componentAt_embed_inRange {plan : EmbedPlan} {index : Index} {into : List Index}
    {embedding : Embedding} (h : plan.Embeds inner.free index into embedding) (hwf : inner.WellFormed)
    (hsized : ∀ b ∈ inner.free, b.factor.Sized b.dim) (henv : InRange plan.free env) :
    ((plan.kind.canonicalize (into.map env)).1 = 0 ∧ (Expr.embed inner plan).componentAt m env = .ok 0) ∨
      ∃ r, (plan.kind.canonicalize (into.map env)).1 ≠ 0 ∧
        plan.kind.rank (plan.kind.canonicalize (into.map env)).2 = .ok r ∧
        InRange inner.free (env.extend [index] [r]) ∧
        (Expr.embed inner plan).componentAt m env = (do
          let x ← inner.componentAt m (env.extend [index] [r])
          return x * Scalar.ofDouble (embedding.coefficient (plan.kind.canonicalize (into.map env)).1
            (Power.rearrangements (plan.kind.canonicalize (into.map env)).2).length)) := by
  obtain ⟨b, hb, rfl, base, dim, hfree, -, hdim⟩ := h.sized hsized
  have hbelow : ∀ a ∈ into.map env, a < dim := by
    intro a ha
    obtain ⟨i, hi, rfl⟩ := List.mem_map.1 ha
    refine henv ⟨i, base, dim⟩ ?_
    rw [hfree]
    exact List.mem_append_right _ (List.mem_map_of_mem hi)
  have hdegree : into.length < Count.limit := Nat.lt_of_le_of_lt h.length_into_le (by decide)
  rw [componentAt_embed m env h hwf]
  dsimp only
  split
  · next hsign => exact .inl ⟨hsign, rfl⟩
  · next hsign =>
    have hcanonical := plan.kind.isCanonical_canonicalize _ hbelow hsign
    rw [List.length_map] at hcanonical
    obtain ⟨hrank, hlt⟩ := PowerKind.rank_of_isCanonical hdegree hdim hcanonical
    refine .inr ⟨_, hsign, hrank, inRange_extend_inner hwf hfree henv (List.nodup_singleton _) ?_, ?_⟩
    · rw [List.map_singleton, extentOf_index hwf.nodup hb]
      exact .cons hlt .nil
    · rw [hrank]
      rfl

omit [Scalar α] in
/-- The tuples of an orbit are in range. -/
theorem inRange_of_merges {plan : CoembedPlan} {indices : List Index} {into : Index}
    {kind : PowerKind} {embedding : Embedding} (h : plan.Merges inner.free indices into kind embedding)
    (hwf : inner.WellFormed) (hsized : ∀ b ∈ inner.free, b.factor.Sized b.dim)
    (henv : InRange plan.free env) :
    ∃ tuple, kind.unrank indices.length (env into) = .ok tuple ∧
      ∀ t ∈ Power.rearrangements tuple, InRange inner.free (env.extend indices t) := by
  obtain ⟨d, power, dim, hfree, -, hdim, hextent⟩ := h.sized hwf.nodup hsized
  have hlt : env into < dim := henv ⟨into, power, dim⟩ (by simp [hfree])
  have hdegree : indices.length < Count.limit :=
    Nat.lt_of_le_of_lt (hwf.length_le_of_located h.located h.nodup) (by decide)
  obtain ⟨tuple, htuple, hcanonical, -⟩ := PowerKind.unrank_of_lt hdegree hdim hlt
  refine ⟨tuple, htuple, fun t ht => inRange_extend_inner hwf hfree henv h.nodup ?_⟩
  have hperm := Power.mem_rearrangements.1 ht
  rw [List.map_congr_left hextent, List.map_const', ← hcanonical.length, ← hperm.length_eq]
  exact Box.inBox_replicate fun a ha => hcanonical.below a (hperm.mem_iff.1 ha)

end Reads

theorem total_bundle {plan : BundlePlan} {indices : List Index} {into : Index}
    (h : plan.Bundles inner.free indices into) (hwf : inner.WellFormed)
    (hsized : ∀ b ∈ inner.free, b.factor.Sized b.dim) (hinner : inner.Total m) :
    (Expr.bundle inner plan).Total m := by
  intro env henv
  obtain ⟨hrange, hcomponent⟩ := componentAt_bundle_inRange (m := m) h hwf hsized henv
  exact hcomponent ▸ hinner _ hrange

theorem total_split {plan : SplitPlan} {index : Index} {into : List Index}
    (h : plan.Splits inner.free index into) (hwf : inner.WellFormed)
    (hsized : ∀ b ∈ inner.free, b.factor.Sized b.dim) (hinner : inner.Total m) :
    (Expr.split inner plan).Total m := by
  intro env henv
  obtain ⟨hrange, hcomponent⟩ := componentAt_split_inRange (m := m) h hwf hsized henv
  exact hcomponent ▸ hinner _ hrange

theorem total_embed {plan : EmbedPlan} {index : Index} {into : List Index} {embedding : Embedding}
    (h : plan.Embeds inner.free index into embedding) (hwf : inner.WellFormed)
    (hsized : ∀ b ∈ inner.free, b.factor.Sized b.dim) (hinner : inner.Total m) :
    (Expr.embed inner plan).Total m := by
  intro env henv
  rcases componentAt_embed_inRange (m := m) h hwf hsized henv with
    ⟨-, hcomponent⟩ | ⟨r, -, -, hrange, hcomponent⟩
  · exact ⟨0, hcomponent⟩
  · obtain ⟨x, hx⟩ := hinner _ hrange
    rw [hcomponent]
    exact exists_bind_ok hx ⟨_, rfl⟩

theorem total_coembed {plan : CoembedPlan} {indices : List Index} {into : Index} {kind : PowerKind}
    {embedding : Embedding} (h : plan.Merges inner.free indices into kind embedding)
    (hwf : inner.WellFormed) (hsized : ∀ b ∈ inner.free, b.factor.Sized b.dim) (hinner : inner.Total m) :
    (Expr.coembed inner plan).Total m := by
  intro env henv
  obtain ⟨tuple, htuple, hrange⟩ := inRange_of_merges h hwf hsized henv
  rw [componentAt_coembed m env h hwf]
  refine exists_bind_ok htuple ?_
  refine exists_bind_ok (foldlM_ok 0 fun t ht sum => ?_).choose_spec ⟨_, rfl⟩
  obtain ⟨x, hx⟩ := hinner _ (hrange t ht)
  exact exists_bind_ok hx ⟨_, rfl⟩

/-! ### What each constructor keeps -/

/-- What every constructor keeps over arrays that are all there: an index ranges over one of the families of
spaces, there is a component at all values in range, and new cells change none of them. -/
structure Evaluable (m : Memory α) (e : Expr α) : Prop extends e.Sound where
  sized : ∀ b ∈ e.free, b.factor.Sized b.dim
  total : e.Total m
  stable : ∀ m', m.Within m' → e.component m' = e.component m

theorem Evaluable.within {m' : Memory α} {e : Expr α} (h : Evaluable m e) (hm : m.Within m') :
    Evaluable m' e := by
  refine ⟨h.toSound, h.sized, fun env henv => ?_, fun m₁ hm₁ => ?_⟩
  · rw [componentAt, h.stable m' hm]
    exact h.total env henv
  · rw [h.stable m₁ (hm.trans hm₁), h.stable m' hm]

section Constructors
variable {e : Expr α}

theorem evaluable_indexed {storage : Storage α} {written : List Index} {factors : List Concept}
    (hfills : storage.Fills m factors) (h : Expr.indexed storage written factors = .ok e) :
    Evaluable m e := by
  have hsound := sound_indexed h
  obtain ⟨l, rfl, rfl, rfl, hl⟩ := indexed_eq_ok h
  have hzip := sized_zip hl.dimension fun c hc => (hfills.based c hc).sized
  refine ⟨hsound, fun b hb => ?_, total_leaf hl hfills, fun m' hm => ?_⟩
  · have hb : b ∈ without (boundIndices l.written factors l.dims) (repeatedSymbols l.written) :=
      hl.free_eq ▸ hb
    exact sized_boundIndices hzip (mem_without.1 hb).1
  · funext values
    simp only [component, Leaf.component, hfills.valid.read_eq hm]

/-- The components are kept with what was evaluated, so it is so in every memory. -/
theorem Evaluable.evaluated {s s' : Session α} (h : Evaluable s.memory inner)
    (heval : inner.eval s = .ok e s') (m : Memory α) : Evaluable m e := by
  obtain ⟨-, count, xs, hcount, hxs, rfl, -⟩ := eval_eq_ok.1 heval
  obtain ⟨hsize, hlimit⟩ := Count.product_eq_ok hcount
  exact ⟨h.toSound.evaluated _, h.sized, total_evaluated (by omega) (size_of_components hcount hxs),
    fun m' hm => rfl⟩

theorem Evaluable.add {op : SumOp} (hleft : Evaluable m left) (hright : Evaluable m right)
    (h : Expr.add op left right = .ok e) : Evaluable m e := by
  have hsound := hleft.toSound.add hright.toSound h
  have htotal := Total.add hleft.toSound hright.toSound h hleft.total hright.total
  obtain ⟨plan, rfl, -⟩ := add_eq_ok h
  refine ⟨hsound, hleft.sized, htotal, fun m' hm => ?_⟩
  funext values
  simp only [component, hleft.stable m' hm, hright.stable m' hm]

theorem Evaluable.scaled (h : Evaluable m inner) (op : ScaleOp) (scalar : α) :
    Evaluable m (Expr.scaled op inner scalar) := by
  refine ⟨h.toSound.scaled op scalar, h.sized, total_scaled h.total, fun m' hm => ?_⟩
  funext values
  simp only [component, h.stable m' hm]

theorem Evaluable.mul (hleft : Evaluable m left) (hright : Evaluable m right)
    (h : left.mul right = .ok e) : Evaluable m e := by
  have hsound := hleft.toSound.mul hright.toSound h
  have htotal := Total.mul hleft.toSound hright.toSound h hleft.total hright.total
  obtain ⟨plan, rfl, hplan⟩ := mul_eq_ok h hleft.nodup hright.nodup
  refine ⟨hsound, ?_, htotal, fun m' hm => ?_⟩
  · show ∀ b ∈ plan.free, _
    rw [hplan.free_eq]
    exact forall_without_append hleft.sized fun b hb => hright.sized b (mem_without.1 hb).1
  · funext values
    simp only [component, hleft.stable m' hm, hright.stable m' hm]

/-- Free indices are replaced by new ones, and the memory is read only through the operand. -/
theorem Evaluable.replace (h : Evaluable m inner) (he : e.Sound) {is : List Index} {new : List BoundIndex}
    (hfree : e.free = without inner.free is ++ new) (hnew : ∀ b ∈ new, b.factor.Sized b.dim)
    (htotal : e.Total m)
    (hreads : ∀ m', inner.component m' = inner.component m → e.component m' = e.component m) : Evaluable m e :=
  ⟨he, hfree ▸ forall_without_append h.sized hnew, htotal, fun m' hm => hreads m' (h.stable m' hm)⟩

theorem Evaluable.bundleInto {indices : List Index} {into : Index} (h : Evaluable m inner)
    (hbundle : inner.bundleInto indices into = .ok e) : Evaluable m e := by
  have hsound := h.toSound.bundleInto hbundle
  obtain ⟨plan, rfl, hplan⟩ := bundleInto_eq_ok hbundle h.nodup
  obtain ⟨factor, dim, hfree, hsized, -⟩ := hplan.sized h.nodup h.sized
  refine h.replace hsound hfree (by simpa using hsized)
    (total_bundle hplan h.toWellFormed h.sized h.total) fun m' hm => ?_
  funext values
  simp only [component, hm]

theorem Evaluable.splitInto {index : Index} {into : List Index} (h : Evaluable m inner)
    (hsplit : inner.splitInto index into = .ok e) : Evaluable m e := by
  have hsound := h.toSound.splitInto hsplit
  obtain ⟨plan, rfl, hplan⟩ := splitInto_eq_ok hsplit h.nodup
  obtain ⟨-, -, -, -, -, factors, hfree, hzip⟩ := hplan.sized h.sized
  refine h.replace hsound hfree (fun b hb => sized_boundIndices hzip hb)
    (total_split hplan h.toWellFormed h.sized h.total) fun m' hm => ?_
  funext values
  simp only [component, hm]

theorem Evaluable.embedInto {index : Index} {into : List Index} {embedding : Embedding}
    (h : Evaluable m inner) (hembed : inner.embedInto index into embedding = .ok e) : Evaluable m e := by
  have hsound := h.toSound.embedInto hembed
  obtain ⟨plan, rfl, hplan⟩ := embedInto_eq_ok hembed h.nodup
  obtain ⟨-, -, -, base, dim, hfree, hsized, -⟩ := hplan.sized h.sized
  refine h.replace hsound hfree (List.forall_mem_map.2 fun i _ => hsized)
    (total_embed hplan h.toWellFormed h.sized h.total) fun m' hm => ?_
  funext values
  simp only [component, hm]

theorem Evaluable.coembedInto {indices : List Index} {into : Index} {kind : PowerKind}
    {embedding : Embedding} (h : Evaluable m inner)
    (hcoembed : inner.coembedInto indices into kind embedding = .ok e) : Evaluable m e := by
  have hsound := h.toSound.coembedInto hcoembed
  obtain ⟨plan, rfl, hplan⟩ := coembedInto_eq_ok hcoembed h.nodup
  obtain ⟨d, power, dim, hfree, hsized, -, -⟩ := hplan.sized h.nodup h.sized
  refine h.replace hsound hfree (by simpa using hsized)
    (total_coembed hplan h.toWellFormed h.sized h.total) fun m' hm => ?_
  funext values
  simp only [component, hm]

theorem Evaluable.reindex {domain codomain : List Index} (h : Evaluable m inner)
    (hreindex : inner.reindex domain codomain = .ok e) : Evaluable m e := by
  have hsound := h.toSound.reindex hreindex
  have hcomponentAt := h.toSound.componentAt_reindex hreindex m
  obtain ⟨ρ, -, hρ, rfl⟩ := h.toSound.exists_relabel hreindex
  refine ⟨hsound, fun b hb => ?_, fun env henv => ?_, fun m' hm => ?_⟩
  · rw [free_relabel] at hb
    obtain ⟨c, hc, rfl⟩ := List.mem_map.1 hb
    exact h.sized c hc
  · rw [free_relabel] at henv
    rw [hcomponentAt]
    refine h.total _ fun b hb => ?_
    rw [← hρ b.index (index_mem_symbols hb)]
    exact henv (b.relabel ρ) (List.mem_map_of_mem hb)
  · funext values
    rw [component_relabel, component_relabel, h.stable m' hm]

end Constructors

theorem Built.evaluable {e : Expr α} (c : Built e) (h : c.Filled m) : Evaluable m e := by
  induction c generalizing m with
  | indexed storage written factors hindexed => exact evaluable_indexed h hindexed
  | evaluated c s s' heval ih => exact (ih h).evaluated heval m
  | sum op l r hadd ihl ihr => exact (ihl h.1).add (ihr h.2) hadd
  | scaled c scalar ih => exact (ih h).scaled .times scalar
  | divided c scalar ih => exact (ih h).scaled .over scalar
  | product l r hmul ihl ihr => exact (ihl h.1).mul (ihr h.2) hmul
  | bundled c indices into hbundle ih => exact (ih h).bundleInto hbundle
  | split c index into hsplit ih => exact (ih h).splitInto hsplit
  | embedded c index into embedding hembed ih => exact (ih h).embedInto hembed
  | coembedded c indices into kind embedding hcoembed ih => exact (ih h).coembedInto hcoembed
  | reindexed c domain codomain hreindex ih => exact (ih h).reindex hreindex

theorem Ready.evaluable {e : Expr α} : Ready m e → Evaluable m e
  | ⟨c, h⟩ => c.evaluable h

/-- Over arrays that are all there, an expression has a component at each multi-index in range. -/
theorem component_ok {e : Expr α} (c : Built e) (h : c.Filled m) {values : List Nat}
    (hvalues : Box.InBox values (e.free.map BoundIndex.dim)) : ∃ x, e.component m values = .ok x := by
  obtain ⟨env, rfl, henv⟩ := exists_inRange c.sound.nodup hvalues
  exact (c.evaluable h).total env henv

/-- A 2-form on three dimensions is embedded into the tensors and contracted with a vector. -/
theorem component_ok_interior : ∃ (e : Expr (Binary .double)) (c : Built e) (m : Memory (Binary .double)),
    c.Filled m ∧ Box.InBox [2] (e.free.map BoundIndex.dim) ∧ ∃ x, e.component m [2] = .ok x := by
  let space := Concept.realSpace 3
  let forms : {c // Concept.basedPower .exterior space 2 = .ok c} := ⟨_, rfl⟩
  have hspace := Concept.based_realSpace 3
  let form := Built.indexed (.readOnly ⟨0, 3, true⟩ : Storage (Binary .double)) [.ofChar 'a'] [forms.1] rfl
  let tensor := form.embedded (.ofChar 'a') [.ofChar 'i', .ofChar 'j'] .natural rfl
  let vector := Built.indexed (.readOnly ⟨3, 3, true⟩ : Storage (Binary .double)) [.ofChar 'j'] [space.dual] rfl
  let c := tensor.product vector rfl
  have hfilled : c.Filled ⟨8, Array.replicate 6 0⟩ := by
    refine ⟨⟨by simp [Storage.Valid], ?_, rfl, by decide⟩, ⟨by simp [Storage.Valid], ?_, rfl, by decide⟩⟩
    · simpa using hspace.power forms.2
    · simpa using hspace.dual
  have hbox : Box.InBox [2] [3] := .cons (by decide) .nil
  exact ⟨_, c, _, hfilled, hbox, component_ok c hfilled hbox⟩

end Expr

end TensorCalculus
