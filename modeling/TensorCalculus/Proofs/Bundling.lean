import TensorCalculus.Proofs.ExactScalar
import TensorCalculus.Proofs.InRange

/-!
# Bundling and splitting

A row of indices and one index over the tensor product of their spaces count the same components: the
product has the factors it was made of, and its values are the positions in the box of the row. So a
bundle that is split again, and a split that is bundled again, have the components of the expression
they started from, with other names (`Expr.componentAt_split_bundle`, `Expr.componentAt_bundle_split`).
The dual of a tensor product is one itself (`Concept.basedTensorProduct_dual`), so this is also about
indices over duals.
-/

namespace TensorCalculus

open TensorCalculus.Expr (freeAt)

/-! ### The plans, with what they bundle and split -/

/-- The plan takes the indices `bs` together to an index over the tensor product of their spaces. -/
structure BundlePlan.BundlesOver (plan : BundlePlan) (inner bs : List BoundIndex) (into : Index)
    (product : Concept) (dim : Nat) : Prop extends plan.Bundles inner (symbols bs) into where
  mem : ∀ b ∈ bs, b ∈ inner
  product_eq : Concept.basedTensorProduct (bs.map BoundIndex.factor) = .ok product
  dim_eq : Count.product (bs.map BoundIndex.dim) = .ok dim
  free_product : plan.free = without inner (symbols bs) ++ [⟨into, product, dim⟩]

/-- The plan takes the index `b` over a tensor product apart into indices over the factors. -/
structure SplitPlan.SplitsOver (plan : SplitPlan) (inner : List BoundIndex) (b : BoundIndex)
    (factors : List Concept) (into : List Index) : Prop extends plan.Splits inner b.index into where
  length_eq : into.length = factors.length
  dimension : List.Forall₂ (fun c d => c.dimension = .ok d) factors plan.dims
  dim_eq : Count.product plan.dims = .ok b.dim
  free_factors : plan.free = without inner [b.index] ++ boundIndices into factors plan.dims

section Plans
variable {inner bs : List BoundIndex}

theorem BundlePlan.BundlesOver.without_free {plan : BundlePlan} {into : Index} {product : Concept} {dim : Nat}
    (h : plan.BundlesOver inner bs into product dim) :
    without plan.free [into] = without inner (symbols bs) := by
  have hfresh : ∀ i ∈ symbols [(⟨into, product, dim⟩ : BoundIndex)],
      i ∉ symbols (without inner (symbols bs)) := by
    simpa [symbols] using h.fresh
  rw [h.free_product]
  exact without_append_symbols hfresh

theorem BundlePlan.BundlesOver.new_mem {plan : BundlePlan} {into : Index} {product : Concept} {dim : Nat}
    (h : plan.BundlesOver inner bs into product dim) : ⟨into, product, dim⟩ ∈ plan.free := by
  simp [h.free_product]

theorem SplitPlan.SplitsOver.symbols_new {plan : SplitPlan} {b : BoundIndex} {factors : List Concept}
    {into : List Index} (h : plan.SplitsOver inner b factors into) :
    symbols (boundIndices into factors plan.dims) = into :=
  symbols_boundIndices h.length_eq h.dimension.length_eq

theorem SplitPlan.SplitsOver.new_mem {plan : SplitPlan} {b : BoundIndex} {factors : List Concept}
    {into : List Index} (h : plan.SplitsOver inner b factors into) :
    ∀ c ∈ boundIndices into factors plan.dims, c ∈ plan.free := by
  intro c hc
  rw [h.free_factors]
  exact List.mem_append_right _ hc

theorem SplitPlan.SplitsOver.without_free {plan : SplitPlan} {b : BoundIndex} {factors : List Concept}
    {into : List Index} (h : plan.SplitsOver inner b factors into) :
    without plan.free into = without inner [b.index] := by
  have hfresh : ∀ i ∈ symbols (boundIndices into factors plan.dims), i ∉ symbols (without inner [b.index]) := by
    rw [h.symbols_new]
    exact h.fresh
  have hkept := without_append_symbols hfresh
  rwa [h.symbols_new, ← h.free_factors] at hkept

end Plans

namespace Expr
variable {α : Type} {e e' : Expr α}

theorem bundleInto_over (he : e.Sound) {bs : List BoundIndex} (hbs : ∀ b ∈ bs, b ∈ e.free) {into : Index}
    (h : e.bundleInto (symbols bs) into = .ok e') : ∃ plan product dim, e' = .bundle e plan ∧
      into ∉ e.used ∧ plan.BundlesOver e.free bs into product dim := by
  obtain ⟨plan, rfl, hused, hplan⟩ := bundleInto_cases h he.nodup
  have hfreeAt : freeAt e.free plan.bundled = bs :=
    eq_of_symbols_eq he.nodup (fun b => mem_of_mem_freeAt) hbs (symbols_freeAt hplan.located)
  obtain ⟨product, dim, hproduct, hdim, hfree⟩ := hplan.free_eq
  rw [hplan.dims_freeAt he.nodup, hfreeAt] at hdim
  exact ⟨plan, product, dim, rfl, hused, hplan, hbs, hfreeAt ▸ hproduct, hdim, hfree⟩

theorem exists_bundled (he : e.Sound) {is : List Index} {into : Index} (h : e.bundleInto is into = .ok e') :
    ∃ bs, symbols bs = is ∧ ∀ b ∈ bs, b ∈ e.free := by
  obtain ⟨plan, -, hplan⟩ := bundleInto_eq_ok h he.nodup
  exact ⟨_, symbols_freeAt hplan.located, fun b => mem_of_mem_freeAt⟩

theorem splitInto_over (he : e.Sound) {b : BoundIndex} (hb : b ∈ e.free) {factors : List Concept}
    (hproduct : Concept.basedTensorProduct factors = .ok b.factor) {into : List Index}
    (h : e.splitInto b.index into = .ok e') : ∃ plan, e' = .split e plan ∧ (∀ i ∈ into, i ∉ e.used) ∧
      plan.SplitsOver e.free b factors into := by
  obtain ⟨-, -, hunique, hfactors⟩ := Concept.queries_basedTensorProduct hproduct
  obtain ⟨plan, rfl, hused, hplan⟩ := splitInto_cases h he.nodup
  obtain ⟨b', hb', hindex, product, factors', hunique', hfactors', hlength, hdims, hfree⟩ := hplan.free_eq
  obtain rfl : b = b' := List.inj_on_of_nodup_map he.nodup hb hb' hindex.symm
  obtain rfl := Except.ok.inj (hunique.symm.trans hunique')
  obtain rfl := Except.ok.inj (hfactors.symm.trans hfactors')
  obtain ⟨n, hn, hdim⟩ := Concept.dimension_basedTensorProduct hdims hproduct
  obtain rfl := Except.ok.inj (hdim.symm.trans (he.dimension b hb))
  exact ⟨plan, rfl, hused, hplan, hlength, hdims, hn, hfree⟩

/-! ### What is accepted -/

theorem bundleInto_ok (he : e.Sound) {bs : List BoundIndex} (hne : bs ≠ []) (hnodup : (symbols bs).Nodup)
    (hbs : ∀ b ∈ bs, b ∈ e.free) {product : Concept} {dim : Nat}
    (hproduct : Concept.basedTensorProduct (bs.map BoundIndex.factor) = .ok product)
    (hdim : Count.product (bs.map BoundIndex.dim) = .ok dim) (into : Index)
    (hfresh : into ∉ symbols (without e.free (symbols bs))) (hused : into ∉ e.used) :
    ∃ e', e.bundleInto (symbols bs) into = .ok e' := by
  have hmem : ∀ i ∈ symbols bs, i ∈ symbols e.free := by
    intro i hi
    obtain ⟨b, hb, rfl⟩ := mem_symbols.1 hi
    exact index_mem_symbols (hbs b hb)
  obtain ⟨bundled, hbundled⟩ := mapM_ok fun i hi => findFree_ok (hmem i hi)
  have hfreeAt : freeAt e.free bundled = bs :=
    eq_of_symbols_eq he.nodup (fun b => mem_of_mem_freeAt) hbs (symbols_freeAt (findAllFree_eq_ok hbundled))
  unfold bundleInto
  dsimp only
  rw [if_neg (by simpa [symbols] using hne)]
  refine exists_bind_ok (liftError_eq_ok.2 (checkDistinct_eq_ok.2 hnodup)) ?_
  refine exists_bind_ok (liftError_eq_ok.2 hbundled) ?_
  refine exists_bind_ok (liftError_eq_ok.2 (checkFresh_eq_ok.2 ⟨hfresh, hused⟩)) ?_
  rw [hfreeAt]
  refine exists_bind_ok (mapError_eq_ok.2 hproduct) ?_
  exact exists_bind_ok (liftFault_eq_ok.2 hdim) ⟨_, rfl⟩

theorem splitInto_ok (he : e.Sound) {b : BoundIndex} (hb : b ∈ e.free) {factors : List Concept}
    {dims : List Nat} (hproduct : Concept.basedTensorProduct factors = .ok b.factor)
    (hdims : List.Forall₂ (fun c d => c.dimension = .ok d) factors dims) {into : List Index}
    (hlength : into.length = factors.length) (hnodup : into.Nodup)
    (hfresh : ∀ i ∈ into, i ∉ symbols (without e.free [b.index]) ∧ i ∉ e.used)
    (hrank : e.rank - 1 + into.length ≤ maxRank) : ∃ e', e.splitInto b.index into = .ok e' := by
  obtain ⟨-, hhas, hunique, hfactors⟩ := Concept.queries_basedTensorProduct hproduct
  obtain ⟨position, hposition⟩ := findFree_ok (index_mem_symbols hb)
  have hget : e.free[position]? = some b := by
    have hlocated := findFree_eq_ok hposition
    rw [getElem?_symbols, Option.map_eq_some_iff] at hlocated
    obtain ⟨b', hget, hindex⟩ := hlocated
    rw [hget, List.inj_on_of_nodup_map he.nodup (List.mem_of_getElem? hget) hb hindex]
  unfold splitInto
  refine exists_bind_ok hposition ?_
  dsimp only
  rw [hget]
  dsimp only
  rw [if_neg (by simp [hhas])]
  refine exists_bind_ok (mapError_eq_ok.2 hunique) ?_
  refine exists_bind_ok (mapError_eq_ok.2 hfactors) ?_
  rw [if_neg (by simp [hlength])]
  refine exists_bind_ok (checkDistinct_eq_ok.2 hnodup) ?_
  refine exists_bind_ok (forM_eq_ok.2 fun i hi => checkFresh_eq_ok.2 (hfresh i hi)) ?_
  refine exists_bind_ok (mapError_eq_ok.2 (checkRank_eq_ok.2 hrank)) ?_
  exact exists_bind_ok (mapM_eq_ok.2 (hdims.imp fun c d hd => mapError_eq_ok.2 hd)) ⟨_, rfl⟩

/-! ### Components -/

section Components
variable [Scalar α] {m : Memory α} {env env' : Assignment}

theorem componentAt_bundle_over {plan : BundlePlan} {bs : List BoundIndex} {into : Index} {product : Concept}
    {dim : Nat} (h : plan.BundlesOver e.free bs into product dim) (he : e.WellFormed) (hlt : env into < dim) :
    (Expr.bundle e plan).componentAt m env =
      e.componentAt m (env.extend (symbols bs) (Box.multiIndex (bs.map BoundIndex.dim) (env into))) := by
  obtain ⟨hsize, -⟩ := Count.product_eq_ok h.dim_eq
  have hpos : ∀ d ∈ bs.map BoundIndex.dim, 0 < d := Box.pos_of_size_pos (by omega)
  rw [componentAt_bundle m env h.toBundles he, map_extentOf he.nodup h.mem, Box.digits_eq hpos]
  rfl

theorem componentAt_split_over {plan : SplitPlan} {b : BoundIndex} {factors : List Concept} {into : List Index}
    (h : plan.SplitsOver e.free b factors into) (he : e.WellFormed)
    (hbox : Box.InBox (into.map env) plan.dims) : (Expr.split e plan).componentAt m env =
      e.componentAt m (env.extend [b.index] [Box.position (into.map env) plan.dims]) := by
  obtain ⟨hsize, hlimit⟩ := Count.product_eq_ok h.dim_eq
  rw [componentAt_split m env h.toSplits he, ← h.dims_eq he.nodup, Box.flatten_eq hbox (by omega)]
  rfl

/-- The values of the new indices are put to a position, and read off it again. -/
theorem componentAt_split_bundle (he : e.WellFormed) {bs : List BoundIndex} {k : Index} {js : List Index}
    {product : Concept} {dim : Nat} {plan : BundlePlan} (h : plan.BundlesOver e.free bs k product dim)
    {plan' : SplitPlan} (h' : plan'.SplitsOver plan.free ⟨k, product, dim⟩ (bs.map BoundIndex.factor) js)
    (heb : (Expr.bundle e plan).WellFormed) (hdims : plan'.dims = bs.map BoundIndex.dim)
    (hbox : Box.InBox (js.map env) (bs.map BoundIndex.dim)) :
    (Expr.split (.bundle e plan) plan').componentAt m env =
      e.componentAt m (env.extend (symbols bs) (js.map env)) := by
  obtain ⟨hsize, -⟩ := Count.product_eq_ok h.dim_eq
  have hvalue : env.extend [k] [Box.position (js.map env) (bs.map BoundIndex.dim)] k =
      Box.position (js.map env) (bs.map BoundIndex.dim) := by simp [Assignment.extend]
  have hlt := hbox.position_lt
  have hlength : (symbols bs).length = (js.map env).length := by
    rw [hbox.length, length_symbols, List.length_map]
  rw [componentAt_split_over h' heb (hdims ▸ hbox), hdims,
    componentAt_bundle_over h he (by rw [hvalue]; omega), hvalue, Box.multiIndex_position hbox,
    componentAt_extend h.nodup hlength (by simpa using h.fresh)]

/-- A position is taken apart, and put together again. -/
theorem componentAt_bundle_split (he : e.WellFormed) {b : BoundIndex} {factors : List Concept} {js : List Index}
    {k : Index} {plan : SplitPlan} (h : plan.SplitsOver e.free b factors js) {bs : List BoundIndex}
    {plan' : BundlePlan} (h' : plan'.BundlesOver plan.free bs k b.factor b.dim)
    (hes : (Expr.split e plan).WellFormed) (hbs : symbols bs = js) (hdims : bs.map BoundIndex.dim = plan.dims)
    (hlt : env k < b.dim) : (Expr.bundle (.split e plan) plan').componentAt m env =
      e.componentAt m (env.extend [b.index] [env k]) := by
  obtain ⟨hsize, -⟩ := Count.product_eq_ok h.dim_eq
  have hbox : Box.InBox (Box.multiIndex plan.dims (env k)) plan.dims :=
    Box.multiIndex_inBox (Box.pos_of_size_pos (by omega)) _
  have hvalues : js.map (env.extend js (Box.multiIndex plan.dims (env k))) = Box.multiIndex plan.dims (env k) :=
    Assignment.map_extend h.nodup (by rw [hbox.length, h.length_eq, h.dimension.length_eq])
  rw [componentAt_bundle_over h' hes hlt, hbs, hdims,
    componentAt_split_over h he (by rwa [hvalues]), hvalues, Box.position_multiIndex (by omega),
    componentAt_extend (List.nodup_singleton _) rfl h.fresh]

/-- An expression that has new names for some indices, read by positions. -/
theorem component_of_componentAt {is new : List Index} (hnew : new.Nodup) (his : is.Nodup)
    (hlength : new.length = is.length) (hfresh : ∀ i ∈ new, i ∉ symbols (without e.free is))
    (hfree : symbols e'.free = symbols (without e.free is) ++ new)
    (h : ∀ env : Assignment, new.map env = is.map env' →
      e'.componentAt m env = e.componentAt m (env.extend is (new.map env))) :
    e'.component m ((symbols (without e.free is) ++ is).map env') = e.component m (e.freeSymbols.map env') := by
  have hvalues : new.map (env'.extend new (is.map env')) = is.map env' :=
    Assignment.map_extend hnew (by rw [hlength, List.length_map])
  have hkept : (symbols (without e.free is)).map (env'.extend new (is.map env')) =
      (symbols (without e.free is)).map env' :=
    List.map_congr_left fun i hi => Assignment.extend_of_not_mem fun hmem => hfresh i hmem hi
  have hrow : (symbols e'.free).map (env'.extend new (is.map env')) =
      (symbols (without e.free is) ++ is).map env' := by
    rw [hfree, List.map_append, List.map_append, hvalues, hkept]
  calc e'.component m ((symbols (without e.free is) ++ is).map env')
      = e'.componentAt m (env'.extend new (is.map env')) := by rw [componentAt, hrow]
    _ = e.componentAt m (env'.extend is (is.map env')) := by
      rw [h _ hvalues, hvalues, componentAt_extend his (by rw [List.length_map]) hfresh]
    _ = e.component m (e.freeSymbols.map env') := by
      rw [Assignment.extend_map_self]
      rfl

end Components

/-! ### There and back -/

theorem splitInto_bundle_over (he : e.Sound) {plan : BundlePlan} {bs : List BoundIndex} {k : Index}
    {product : Concept} {dim : Nat} (h : plan.BundlesOver e.free bs k product dim)
    (heb : (Expr.bundle e plan).Sound) {js : List Index} (hes : (Expr.bundle e plan).splitInto k js = .ok e') :
    ∃ plan', e' = .split (.bundle e plan) plan' ∧ (∀ j ∈ js, j ∉ e.used) ∧
      plan'.dims = bs.map BoundIndex.dim ∧
      plan'.SplitsOver plan.free ⟨k, product, dim⟩ (bs.map BoundIndex.factor) js := by
  obtain ⟨plan', rfl, hused, hplan'⟩ := splitInto_over heb h.new_mem h.product_eq hes
  have hdims := forall₂_dimension fun b hb => he.dimension b (h.mem b hb)
  have hdims' := (mapM_eq_ok.2 hplan'.dimension).symm.trans (mapM_eq_ok.2 hdims)
  exact ⟨plan', rfl, hused, Except.ok.inj hdims', hplan'⟩

theorem bundleInto_split_over {b : BoundIndex} {factors : List Concept}
    (hproduct : Concept.basedTensorProduct factors = .ok b.factor) {plan : SplitPlan} {js : List Index}
    (h : plan.SplitsOver e.free b factors js) (hes : (Expr.split e plan).Sound) {k : Index}
    (hbe : (Expr.split e plan).bundleInto js k = .ok e') :
    ∃ plan', e' = .bundle (.split e plan) plan' ∧ k ∉ e.used ∧
      plan'.BundlesOver plan.free (boundIndices js factors plan.dims) k b.factor b.dim := by
  rw [← h.symbols_new] at hbe
  obtain ⟨plan', product, dim, rfl, hused, hplan'⟩ := bundleInto_over hes h.new_mem hbe
  have hproduct' := hplan'.product_eq
  rw [factors_boundIndices h.length_eq h.dimension.length_eq, hproduct] at hproduct'
  have hdim := hplan'.dim_eq
  rw [dims_boundIndices h.length_eq h.dimension.length_eq, h.dim_eq] at hdim
  cases hproduct'
  cases hdim
  exact ⟨plan', rfl, hused, hplan'⟩

/-- New names for the indices of a bundle are accepted if they are as many, different, and not taken. -/
theorem splitInto_bundle_iff (he : e.Sound) {plan : BundlePlan} {bs : List BoundIndex} {k : Index}
    {product : Concept} {dim : Nat} (h : plan.BundlesOver e.free bs k product dim)
    (heb : (Expr.bundle e plan).Sound) (js : List Index) :
    (∃ es, (Expr.bundle e plan).splitInto k js = .ok es) ↔ js.length = bs.length ∧ js.Nodup ∧
      ∀ j ∈ js, j ∉ symbols (without e.free (symbols bs)) ∧ j ∉ e.used := by
  constructor
  · rintro ⟨es, hes⟩
    obtain ⟨plan', rfl, hused, -, hplan'⟩ := splitInto_bundle_over he h heb hes
    refine ⟨by simpa using hplan'.length_eq, hplan'.nodup, fun j hj => ⟨?_, hused j hj⟩⟩
    rw [← h.without_free]
    exact hplan'.fresh j hj
  · rintro ⟨hlength, hnodup, hfresh⟩
    -- As many indices come back as were there, so the rank is still allowed.
    have hrank : (Expr.bundle e plan).rank - 1 + js.length ≤ maxRank := by
      have hmem : ∀ i ∈ symbols bs, i ∈ symbols e.free := fun i => h.located.mem_names
      have hkept := length_without_add_le he.nodup h.nodup hmem
      have hle := he.length_le
      have hfree := congrArg List.length h.free_product
      rw [length_symbols] at hkept hle
      rw [List.length_append, List.length_singleton] at hfree
      show plan.free.length - 1 + js.length ≤ maxRank
      omega
    refine splitInto_ok heb h.new_mem h.product_eq (forall₂_dimension fun b hb => he.dimension b (h.mem b hb))
      (by simpa using hlength) hnodup ?_ hrank
    show ∀ j ∈ js, j ∉ symbols (without plan.free [k]) ∧ j ∉ e.used
    rwa [h.without_free]

theorem bundleInto_split_iff {b : BoundIndex} {factors : List Concept}
    (hproduct : Concept.basedTensorProduct factors = .ok b.factor) {plan : SplitPlan} {js : List Index}
    (h : plan.SplitsOver e.free b factors js) (hes : (Expr.split e plan).Sound) (k : Index) :
    (∃ be, (Expr.split e plan).bundleInto js k = .ok be) ↔
      k ∉ symbols (without e.free [b.index]) ∧ k ∉ e.used := by
  constructor
  · rintro ⟨be, hbe⟩
    obtain ⟨plan', rfl, hused, hplan'⟩ := bundleInto_split_over hproduct h hes hbe
    have hfresh := hplan'.fresh
    rw [h.symbols_new, h.without_free] at hfresh
    exact ⟨hfresh, hused⟩
  · rintro ⟨hfresh, hused⟩
    obtain ⟨hne, -⟩ := Concept.queries_basedTensorProduct hproduct
    have hsymbols := h.symbols_new
    have hnew : boundIndices js factors plan.dims ≠ [] := by
      intro hnil
      rw [hnil] at hsymbols
      exact hne (List.length_eq_zero_iff.1 (by rw [← h.length_eq, ← hsymbols]; rfl))
    have hok := bundleInto_ok hes hnew (hsymbols.symm ▸ h.nodup) h.new_mem
      (by rwa [factors_boundIndices h.length_eq h.dimension.length_eq])
      (by rw [dims_boundIndices h.length_eq h.dimension.length_eq]; exact h.dim_eq) k
    rw [hsymbols] at hok
    exact hok (h.without_free.symm ▸ hfresh) hused

/-- Splitting a bundle gives back the indices it was made of, under new names and after the others. Bundling
what an index over a tensor product was split into gives back this index. The components are the same. -/
theorem bundle_split_inverse [Scalar α] (c : Made e) :
    (∀ is k eb, e.bundleInto is k = .ok eb → ∃ bs, symbols bs = is ∧ (∀ b ∈ bs, b ∈ e.free) ∧ ∀ js,
      ((∃ es, eb.splitInto k js = .ok es) ↔ js.length = is.length ∧ js.Nodup ∧
        ∀ j ∈ js, j ∉ symbols (without e.free is) ∧ j ∉ e.used) ∧
      ∀ es, eb.splitInto k js = .ok es →
        es.free = without e.free is ++
          boundIndices js (bs.map BoundIndex.factor) (bs.map BoundIndex.dim) ∧
        ∀ m env, InRange e.free env →
          es.component m ((symbols (without e.free is) ++ is).map env) =
            e.component m (e.freeSymbols.map env)) ∧
    (∀ b ∈ e.free, ∀ factors, Concept.basedTensorProduct factors = .ok b.factor →
      ∀ js es, e.splitInto b.index js = .ok es → ∀ k,
      ((∃ be, es.bundleInto js k = .ok be) ↔ k ∉ symbols (without e.free [b.index]) ∧ k ∉ e.used) ∧
      ∀ be, es.bundleInto js k = .ok be →
        be.free = without e.free [b.index] ++ [⟨k, b.factor, b.dim⟩] ∧
        ∀ m env, InRange e.free env →
          be.component m ((symbols (without e.free [b.index]) ++ [b.index]).map env) =
            e.component m (e.freeSymbols.map env)) := by
  have he := c.sound
  refine ⟨fun is k eb heb => ?_, fun b hb factors hproduct js es hes k => ?_⟩
  · obtain ⟨bs, rfl, hbs⟩ := exists_bundled he heb
    obtain ⟨plan, product, dim, rfl, -, hplan⟩ := bundleInto_over he hbs heb
    have hbundle := he.bundleInto heb
    refine ⟨bs, rfl, hbs, fun js => ⟨?_, fun es hes => ?_⟩⟩
    · rw [length_symbols]
      exact splitInto_bundle_iff he hplan hbundle js
    obtain ⟨plan', rfl, -, hdims, hplan'⟩ := splitInto_bundle_over he hplan hbundle hes
    have hfree := hplan'.free_factors
    rw [hplan.without_free, hdims] at hfree
    refine ⟨hfree, fun m env henv => ?_⟩
    have hfresh := hplan'.fresh
    rw [hplan.without_free] at hfresh
    have hsymbols := hplan'.toSplits.symbols_free
    rw [hplan.without_free] at hsymbols
    refine component_of_componentAt hplan'.nodup hplan.nodup (by simpa using hplan'.length_eq) hfresh hsymbols
      fun env' henv' => ?_
    refine componentAt_split_bundle he.toWellFormed hplan hplan' hbundle.toWellFormed hdims ?_
    rw [henv']
    exact inBox_iff_inRange.2 fun b hb => henv b (hbs b hb)
  · obtain ⟨plan, rfl, -, hplan⟩ := splitInto_over he hb hproduct hes
    have hsplit := he.splitInto hes
    refine ⟨bundleInto_split_iff hproduct hplan hsplit k, fun be hbe => ?_⟩
    obtain ⟨plan', rfl, -, hplan'⟩ := bundleInto_split_over hproduct hplan hsplit hbe
    have hfree := hplan'.free_product
    rw [hplan.symbols_new, hplan.without_free] at hfree
    refine ⟨hfree, fun m env henv => ?_⟩
    have hfresh := hplan'.fresh
    rw [hplan.symbols_new, hplan.without_free] at hfresh
    refine component_of_componentAt (List.nodup_singleton k) (List.nodup_singleton _) rfl
      (by simpa using hfresh) ((congrArg symbols hfree).trans (symbols_append _ _)) fun env' henv' => ?_
    refine componentAt_bundle_split he.toWellFormed hplan hplan' hsplit.toWellFormed hplan.symbols_new
      (dims_boundIndices hplan.length_eq hplan.dimension.length_eq) ?_
    obtain ⟨hk, -⟩ := List.cons.inj henv'
    rw [hk]
    exact henv b hb

/-- The indices of a matrix are bundled in the other order and split under each other's names: the matrix is
transposed. Bundled again, it is the row it was. -/
theorem bundle_split_inverse_transpose : ∃ (e eb es be : Expr Int) (m : Memory Int),
    e.bundleInto [.ofChar 'j', .ofChar 'i'] (.ofChar 'k') = .ok eb ∧
    eb.splitInto (.ofChar 'k') [.ofChar 'i', .ofChar 'j'] = .ok es ∧
    es.bundleInto [.ofChar 'i', .ofChar 'j'] (.ofChar 'k') = .ok be ∧
    e.component m [1, 2] = .ok 6 ∧ es.component m [2, 1] = .ok 6 ∧ be.component m [4] = eb.component m [4] := by
  let plane := Concept.realSpace 2
  let space := Concept.realSpace 3
  let product : {c // Concept.basedTensorProduct [space, plane] = .ok c} := ⟨_, rfl⟩
  let m : Memory Int := ⟨8, #[1, 2, 3, 4, 5, 6]⟩
  let e : {e : Expr Int //
    Expr.indexed (.readOnly ⟨0, 6, true⟩) [.ofChar 'i', .ofChar 'j'] [plane, space] = .ok e} := ⟨_, rfl⟩
  let eb : {eb // e.1.bundleInto [.ofChar 'j', .ofChar 'i'] (.ofChar 'k') = .ok eb} := ⟨_, rfl⟩
  let c := Built.indexed _ _ _ e.2
  obtain ⟨bs, -, -, hsplit⟩ := (bundle_split_inverse ⟨c⟩).1 _ _ _ eb.2
  obtain ⟨haccept, hes⟩ := hsplit [.ofChar 'i', .ofChar 'j']
  obtain ⟨es, hes'⟩ := haccept.2 ⟨rfl, by decide, by decide⟩
  obtain ⟨-, htransposed⟩ := hes es hes'
  have hbound : (⟨.ofChar 'k', product.1, 6⟩ : BoundIndex) ∈ eb.1.free := List.mem_singleton.2 rfl
  obtain ⟨haccept, hbe⟩ := (bundle_split_inverse ⟨c.bundled _ _ eb.2⟩).2 _ hbound [space, plane]
    product.2 _ _ hes' (.ofChar 'k')
  obtain ⟨be, hbe'⟩ := haccept.2 ⟨by decide, by decide⟩
  obtain ⟨-, hrow⟩ := hbe be hbe'
  exact ⟨e.1, eb.1, es, be, m, eb.2, hes', hbe', rfl,
    htransposed m (fun i => if i = .ofChar 'j' then 2 else 1) (by decide), hrow m (fun _ => 4) (by decide)⟩

end Expr

end TensorCalculus
