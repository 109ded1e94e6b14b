import TensorCalculus.Proofs.Family
import TensorCalculus.Proofs.Renaming
import TensorCalculus.Proofs.Session

/-!
# What holds of every expression

`Expr.Built e` says how `e` comes out of a sequence of calls of the constructors, with renaming among
them, and `Expr.Made e` that it does. Each constructor keeps `Expr.Sound`, so it holds of all that was made
(`Expr.Built.sound`): free and used symbols are all different, no more are free than a row has slots, and
an index shows the dimension of its factor. The sums and products inside stay such as their constructors
make them. So renaming an expression fails only where a symbol has no image, and leaves its components as
they are (`Expr.component_renamed`).
-/

namespace TensorCalculus

open TensorCalculus.Expr (freeAt)

/-! ### Dimensions of new indices -/

section Bound
variable {written : List Index} {factors : List Concept} {dims : List Nat} {b : BoundIndex}

theorem mem_boundIndices (h : b ∈ boundIndices written factors dims) : ∃ p : Nat,
    written[p]? = some b.index ∧ factors[p]? = some b.factor ∧ dims[p]? = some b.dim := by
  obtain ⟨p, hp⟩ := List.getElem?_of_mem h
  rw [getElem?_boundIndices] at hp
  split at hp
  · next index factor dim hwritten hfactor hdim =>
    cases hp
    exact ⟨p, hwritten, hfactor, hdim⟩
  · cases hp

theorem dimension_boundIndices (hdims : List.Forall₂ (fun c d => c.dimension = .ok d) factors dims)
    (h : b ∈ boundIndices written factors dims) : b.factor.dimension = .ok b.dim := by
  obtain ⟨p, -, hfactor, hdim⟩ := mem_boundIndices h
  exact (List.forall₂_iff_zip.1 hdims).2 (List.mem_of_getElem? (List.getElem?_zip_eq_some.2 ⟨hfactor, hdim⟩))

end Bound

/-- The dimensions that indices show are those of their factors. -/
theorem forall₂_dimension {bs : List BoundIndex} (h : ∀ b ∈ bs, b.factor.dimension = .ok b.dim) :
    List.Forall₂ (fun c d => c.dimension = .ok d) (bs.map BoundIndex.factor) (bs.map BoundIndex.dim) := by
  rw [List.forall₂_map_left_iff, List.forall₂_map_right_iff, List.forall₂_same]
  exact h

theorem BundlePlan.Bundles.dims_freeAt {plan : BundlePlan} {inner : List BoundIndex} {indices : List Index}
    {index : Index} (h : plan.Bundles inner indices index) (hnodup : (symbols inner).Nodup) :
    plan.dims = (freeAt inner plan.bundled).map BoundIndex.dim := by
  rw [h.dims_eq, TensorCalculus.dims_freeAt hnodup h.located]

/-- The new index of a bundle shows the dimension of the tensor product. -/
theorem BundlePlan.Bundles.dimension {plan : BundlePlan} {inner : List BoundIndex} {indices : List Index}
    {index : Index} (h : plan.Bundles inner indices index) (hnodup : (symbols inner).Nodup)
    (hinner : ∀ b ∈ inner, b.factor.dimension = .ok b.dim) :
    ∃ factor dim, plan.free = without inner indices ++ [⟨index, factor, dim⟩] ∧
      factor.dimension = .ok dim := by
  obtain ⟨factor, dim, hfactor, hdim, hfree⟩ := h.free_eq
  have hdims := forall₂_dimension fun b (hb : b ∈ freeAt inner plan.bundled) =>
    hinner b (mem_of_mem_freeAt hb)
  rw [← h.dims_freeAt hnodup] at hdims
  obtain ⟨n, hn, hdimension⟩ := Concept.dimension_basedTensorProduct hdims hfactor
  obtain rfl : n = dim := Except.ok.inj (hn.symm.trans hdim)
  exact ⟨factor, n, hfree, hdimension⟩

theorem forall_without_append {P : BoundIndex → Prop} {free new : List BoundIndex} {is : List Index}
    (hfree : ∀ b ∈ free, P b) (hnew : ∀ b ∈ new, P b) : ∀ b ∈ without free is ++ new, P b := by
  intro b hb
  rcases List.mem_append.1 hb with hb | hb
  · exact hfree b (mem_without.1 hb).1
  · exact hnew b hb

/-! ### What each constructor keeps -/

namespace Expr
variable {α : Type} {e left right inner : Expr α}

/-- What every constructor keeps. -/
structure Sound (e : Expr α) : Prop extends e.WellFormed where
  nodup_used : e.used.Nodup
  not_used : ∀ i ∈ symbols e.free, i ∉ e.used
  dimension : ∀ b ∈ e.free, b.factor.dimension = .ok b.dim
  consistent : e.Consistent

theorem sound_indexed {storage : Storage α} {written : List Index} {factors : List Concept}
    (h : Expr.indexed storage written factors = .ok e) : e.Sound := by
  have hused := indexed_used h
  obtain ⟨l, rfl, -, rfl, hl⟩ := indexed_eq_ok h
  refine ⟨⟨hl.nodup_free, length_symbols ▸ hl.rank_free_le⟩, ?_, ?_, ?_, trivial⟩
  · rw [hused]
    exact Occurrence.nodup_occurring 2 _
  · intro i hi hi'
    have hi : i ∈ symbols l.free := hi
    rw [hl.free_eq, mem_symbols_without] at hi
    rw [hused, ← List.contains_iff_mem, contains_occurring hl.count_le, List.contains_iff_mem] at hi'
    exact hi.2 hi'
  · intro b hb
    have hb : b ∈ l.free := hb
    rw [hl.free_eq] at hb
    exact dimension_boundIndices hl.dimension (mem_without.1 hb).1

/-- What was evaluated is used up. -/
theorem Sound.evaluated (h : inner.Sound) (array : OwnedArray α) :
    (Expr.evaluated inner.free array).Sound :=
  ⟨⟨h.nodup, h.length_le⟩, List.nodup_nil, fun _ _ => List.not_mem_nil, h.dimension, trivial⟩

theorem Sound.scaled (h : inner.Sound) (op : ScaleOp) (scalar : α) :
    (Expr.scaled op inner scalar).Sound :=
  ⟨⟨h.nodup, h.length_le⟩, h.nodup_used, h.not_used, h.dimension, h.consistent⟩

theorem Sound.add {op : SumOp} (hleft : left.Sound) (hright : right.Sound)
    (h : add op left right = .ok e) : e.Sound := by
  obtain ⟨hcompatible, hused⟩ := add_used h
  obtain ⟨plan, rfl, -⟩ := add_eq_ok h
  refine ⟨⟨hleft.nodup, hleft.length_le⟩, ?_, ?_, hleft.dimension, hleft.consistent, hright.consistent, h⟩
  · rw [hused]
    exact Occurrence.nodup_distinct _
  · intro i hi hi'
    rw [hused, Occurrence.mem_distinct] at hi'
    rcases List.mem_append.1 hi' with hi' | hi'
    · exact hleft.not_used i hi hi'
    · exact hcompatible.right_used i hi' hi

theorem Sound.mul (hleft : left.Sound) (hright : right.Sound) (h : left.mul right = .ok e) : e.Sound := by
  obtain ⟨hcompatible, hused, -⟩ := mul_used h
  obtain ⟨plan, rfl, hplan⟩ := mul_eq_ok h hleft.nodup hright.nodup
  have hfree : (Expr.product left right plan).free = _ := hplan.free_eq
  refine ⟨⟨hplan.nodup_free hleft.nodup hright.nodup, length_symbols ▸ hplan.rank_le⟩, ?_, ?_, ?_,
    hleft.consistent, hright.consistent, h⟩
  · rw [hused]
    exact Occurrence.nodup_distinct _
  · -- a free symbol of the product is free in just one operand
    intro i hi hi'
    rw [hused, Occurrence.mem_distinct, List.mem_append, List.mem_append, Occurrence.mem_common] at hi'
    rw [hfree, symbols_append] at hi
    rcases List.mem_append.1 hi with hi | hi
    · obtain ⟨hi, hnot⟩ := mem_symbols_without.1 hi
      rcases hi' with (hi' | hi') | hi'
      · exact hleft.not_used i hi hi'
      · exact hcompatible.right_used i hi' hi
      · exact hnot hi'.2
    · obtain ⟨hi, hnot⟩ := mem_symbols_without.1 hi
      rcases hi' with (hi' | hi') | hi'
      · exact hcompatible.left_used i hi' hi
      · exact hright.not_used i hi hi'
      · exact hnot hi'.1
  · rw [hfree]
    exact forall_without_append hleft.dimension fun b hb => hright.dimension b (mem_without.1 hb).1

/-- Free indices are replaced by new ones, and nothing is summed over. -/
theorem Sound.replace (h : inner.Sound) (hwf : e.WellFormed) {is : List Index} {new : List BoundIndex}
    (hfree : e.free = without inner.free is ++ new) (hused : e.used = inner.used)
    (hnew : ∀ i ∈ symbols new, i ∉ inner.used) (hdim : ∀ b ∈ new, b.factor.dimension = .ok b.dim)
    (hconsistent : e.Consistent) : e.Sound := by
  refine ⟨hwf, hused ▸ h.nodup_used, ?_, hfree ▸ forall_without_append h.dimension hdim, hconsistent⟩
  intro i hi
  rw [hused]
  rw [hfree, symbols_append] at hi
  rcases List.mem_append.1 hi with hi | hi
  · exact h.not_used i (mem_symbols_without.1 hi).1
  · exact hnew i hi

theorem Sound.bundleInto {indices : List Index} {into : Index} (hinner : inner.Sound)
    (h : inner.bundleInto indices into = .ok e) : e.Sound := by
  obtain ⟨plan, rfl, hfresh, hplan⟩ := bundleInto_cases h hinner.nodup
  obtain ⟨factor, dim, hfree, hdim⟩ := hplan.dimension hinner.nodup hinner.dimension
  exact hinner.replace (hinner.toWellFormed.of_gathers hplan.toGathers) hfree rfl
    (by simpa [symbols] using hfresh) (by simpa using hdim) hinner.consistent

theorem Sound.splitInto {index : Index} {into : List Index} (hinner : inner.Sound)
    (h : inner.splitInto index into = .ok e) : e.Sound := by
  obtain ⟨plan, rfl, hfresh, hplan⟩ := splitInto_cases h hinner.nodup
  obtain ⟨-, -, -, -, factors, -, -, hlength, hdims, hfree⟩ := hplan.free_eq
  refine hinner.replace (hinner.toWellFormed.of_scatters hplan.toScatters) hfree rfl ?_
    (fun b hb => dimension_boundIndices hdims hb) hinner.consistent
  rw [symbols_boundIndices hlength hdims.length_eq]
  exact hfresh

theorem Sound.embedInto {index : Index} {into : List Index} {embedding : Embedding} (hinner : inner.Sound)
    (h : inner.embedInto index into embedding = .ok e) : e.Sound := by
  obtain ⟨plan, rfl, hfresh, hplan⟩ := embedInto_cases h hinner.nodup
  obtain ⟨-, -, -, -, base, dim, -, -, -, -, hdim, hfree⟩ := hplan.free_eq
  refine hinner.replace (hinner.toWellFormed.of_scatters hplan.toScatters) hfree rfl ?_ ?_ hinner.consistent
  · rw [symbols_map, List.map_id']
    exact hfresh
  · intro b hb
    obtain ⟨i, -, rfl⟩ := List.mem_map.1 hb
    exact hdim

theorem Sound.coembedInto {indices : List Index} {into : Index} {kind : PowerKind} {embedding : Embedding}
    (hinner : inner.Sound) (h : inner.coembedInto indices into kind embedding = .ok e) : e.Sound := by
  obtain ⟨plan, rfl, hfresh, hplan⟩ := coembedInto_cases h hinner.nodup
  obtain ⟨-, power, dim, -, -, hdim, hfree⟩ := hplan.free_eq
  exact hinner.replace (hinner.toWellFormed.of_gathers hplan.toGathers) hfree rfl
    (by simpa [symbols] using hfresh) (by simpa using hdim) hinner.consistent

theorem Sound.relabel {ρ : Index → Index} (hρ : ρ.Injective) (h : e.Sound) : (e.relabel ρ).Sound := by
  refine ⟨⟨?_, ?_⟩, ?_, ?_, ?_, h.consistent.relabel hρ⟩
  · rw [free_relabel, symbols_relabel]
    exact h.nodup.map hρ
  · rw [free_relabel, symbols_relabel, List.length_map]
    exact h.length_le
  · rw [used_relabel]
    exact h.nodup_used.map hρ
  · intro i hi
    rw [free_relabel, symbols_relabel] at hi
    obtain ⟨j, hj, rfl⟩ := List.mem_map.1 hi
    rw [used_relabel, List.mem_map_of_injective hρ]
    exact h.not_used j hj
  · intro b hb
    rw [free_relabel] at hb
    obtain ⟨c, hc, rfl⟩ := List.mem_map.1 hb
    exact h.dimension c hc

/-- A renamed expression is a relabelled one. -/
theorem Sound.renames (h : e.Sound) {r : Renaming} (hr : r.Proper) : ∃ ρ : Index → Index,
    ρ.Injective ∧ (∀ i j, r.image? i = some j → ρ i = j) ∧
      r.Renames e.mentioned (e.renamed r) (e.relabel ρ) := by
  obtain ⟨ρ, hinj, hρ⟩ := hr.exists_injective
  exact ⟨ρ, hinj, hρ, h.consistent.renames hρ hinj⟩

/-- The name that a symbol gets when `domain` is renamed to `codomain`. -/
def newName (domain codomain : List Index) (i : Index) : Index :=
  match Renaming.of domain codomain with
  | .ok r => (r.image? i).getD i
  | .error _ => i

theorem Sound.exists_relabel (hinner : inner.Sound) {domain codomain : List Index}
    (h : inner.reindex domain codomain = .ok e) : ∃ ρ : Index → Index, ρ.Injective ∧
      (∀ i ∈ symbols inner.free, ρ i = newName domain codomain i) ∧ e = inner.relabel ρ := by
  unfold Expr.reindex at h
  obtain ⟨r, hr, h⟩ := bind_eq_ok.1 h
  have hr : Renaming.of domain codomain = .ok r := mapError_eq_ok.1 hr
  obtain ⟨ρ, hinj, hρ, hrenames⟩ := hinner.renames (Renaming.proper_of hr)
  rcases hrenames with ⟨hdefined, hok⟩ | ⟨i, -, -, herror⟩
  · refine ⟨ρ, hinj, fun i hi => ?_, Except.ok.inj (h.symm.trans hok)⟩
    obtain ⟨j, hj⟩ := hdefined i (mentioned_of_free hi)
    rw [newName, hr, hρ i j hj]
    simp [hj]
  · rw [herror] at h
    cases h

theorem Sound.reindex (hinner : inner.Sound) {domain codomain : List Index}
    (h : inner.reindex domain codomain = .ok e) : e.Sound := by
  obtain ⟨ρ, hinj, -, rfl⟩ := hinner.exists_relabel h
  exact hinner.relabel hinj

/-! ### Everything that was made -/

variable [Scalar α]

/-- How an expression is made by the constructors. -/
inductive Built : Expr α → Type where
  | indexed {e : Expr α} (storage : Storage α) (written : List Index) (factors : List Concept)
      (h : Expr.indexed storage written factors = .ok e) : Built e
  | evaluated {inner e : Expr α} (c : Built inner) (s s' : Session α) (h : inner.eval s = .ok e s') : Built e
  | sum {left right e : Expr α} (op : SumOp) (l : Built left) (r : Built right)
      (h : add op left right = .ok e) : Built e
  | scaled {inner : Expr α} (c : Built inner) (scalar : α) : Built (inner.scale scalar)
  | divided {inner : Expr α} (c : Built inner) (scalar : α) : Built (inner.divide scalar)
  | product {left right e : Expr α} (l : Built left) (r : Built right) (h : left.mul right = .ok e) : Built e
  | bundled {inner e : Expr α} (c : Built inner) (indices : List Index) (into : Index)
      (h : inner.bundleInto indices into = .ok e) : Built e
  | split {inner e : Expr α} (c : Built inner) (index : Index) (into : List Index)
      (h : inner.splitInto index into = .ok e) : Built e
  | embedded {inner e : Expr α} (c : Built inner) (index : Index) (into : List Index)
      (embedding : Embedding) (h : inner.embedInto index into embedding = .ok e) : Built e
  | coembedded {inner e : Expr α} (c : Built inner) (indices : List Index) (into : Index)
      (kind : PowerKind) (embedding : Embedding)
      (h : inner.coembedInto indices into kind embedding = .ok e) : Built e
  | reindexed {inner e : Expr α} (c : Built inner) (domain codomain : List Index)
      (h : inner.reindex domain codomain = .ok e) : Built e

/-- The expression comes out of some sequence of calls of the constructors. -/
def Made (e : Expr α) : Prop := Nonempty (Built e)

theorem Built.sound (c : Built e) : e.Sound := by
  induction c with
  | indexed storage written factors h => exact sound_indexed h
  | evaluated c s s' h ih =>
    obtain ⟨-, count, xs, -, -, rfl, -⟩ := eval_eq_ok.1 h
    exact ih.evaluated _
  | sum op l r h ihl ihr => exact ihl.add ihr h
  | scaled c scalar ih => exact ih.scaled .times scalar
  | divided c scalar ih => exact ih.scaled .over scalar
  | product l r h ihl ihr => exact ihl.mul ihr h
  | bundled c indices into h ih => exact ih.bundleInto h
  | split c index into h ih => exact ih.splitInto h
  | embedded c index into embedding h ih => exact ih.embedInto h
  | coembedded c indices into kind embedding h ih => exact ih.coembedInto h
  | reindexed c domain codomain h ih => exact ih.reindex h

theorem Made.sound : Made e → e.Sound
  | ⟨c⟩ => c.sound

/-- Free and used symbols of an expression are all different, there are at most 16 free ones, and each
shows the dimension of its factor. -/
theorem free_used_distinct (c : Made e) : e.freeSymbols.Nodup ∧ e.used.Nodup ∧
    (∀ i ∈ e.freeSymbols, i ∉ e.used) ∧ e.free.length ≤ 16 ∧
    ∀ b ∈ e.free, b.factor.dimension = .ok b.dim :=
  ⟨c.sound.nodup, c.sound.nodup_used, c.sound.not_used, length_symbols ▸ c.sound.length_le, c.sound.dimension⟩

/-- Two indices of an array are summed together, and a third one with that of a vector. -/
theorem free_used_distinct_trace : ∃ e : Expr (Binary .double), Made e ∧
    e.freeSymbols = [.ofChar 'i'] ∧ e.used = [.ofChar 'k', .ofChar 'j'] ∧ ∀ i ∈ e.freeSymbols, i ∉ e.used := by
  let space := Concept.realSpace 2
  let array : {e : Expr (Binary .double) // Expr.indexed (.readOnly ⟨0, 16, true⟩)
    [.ofChar 'k', .ofChar 'i', .ofChar 'k', .ofChar 'j'] [space, space, space.dual, space] = .ok e} := ⟨_, rfl⟩
  let vector : {e : Expr (Binary .double) // Expr.indexed (.readOnly ⟨16, 2, true⟩)
    [.ofChar 'j'] [space.dual] = .ok e} := ⟨_, rfl⟩
  let e : {e // array.1.mul vector.1 = .ok e} := ⟨_, rfl⟩
  have c : Made e.1 := ⟨.product (.indexed _ _ _ array.2) (.indexed _ _ _ vector.2) e.2⟩
  exact ⟨e.1, c, rfl, rfl, (free_used_distinct c).2.2.1⟩

/-! ### Renaming -/

/-- Renaming succeeds exactly if every symbol of the tree has an image, and fails in no other way. The
renamed expression has the same indices in the same order under their new names, and the same
components. -/
theorem component_renamed (c : Made e) {domain codomain : List Index} {r : Renaming}
    (hr : Renaming.of domain codomain = .ok r) :
    ((∃ e', e.renamed r = .ok e') ↔ ∀ i ∈ e.mentioned, ∃ j, r.image? i = some j) ∧
    (∀ error, e.renamed r = .error error →
      ∃ i ∈ e.mentioned, r.image? i = none ∧ error = .symbolOverflow i) ∧
    ∀ e', e.renamed r = .ok e' →
      List.Forall₂ (fun b b' => r.image? b.index = some b'.index ∧ b'.factor = b.factor ∧ b'.dim = b.dim)
        e.free e'.free ∧
      List.Forall₂ (fun i i' => r.image? i = some i') e.used e'.used ∧
      ∀ m values, e'.component m values = e.component m values := by
  obtain ⟨ρ, -, hρ, hrenames⟩ := c.sound.renames (Renaming.proper_of hr)
  rcases hrenames with ⟨hdefined, hok⟩ | ⟨i, hi, hnone, herror⟩
  · have himage : ∀ i ∈ e.mentioned, r.image? i = some (ρ i) := by
      intro i hi
      obtain ⟨j, hj⟩ := hdefined i hi
      rw [hj, hρ i j hj]
    refine ⟨⟨fun _ => hdefined, fun _ => ⟨_, hok⟩⟩, fun error h => ?_, fun e' h => ?_⟩
    · rw [hok] at h
      cases h
    obtain rfl := Except.ok.inj (hok.symm.trans h)
    refine ⟨?_, ?_, fun m values => by rw [component_relabel]⟩
    · rw [free_relabel, List.forall₂_map_right_iff, List.forall₂_same]
      intro b hb
      exact ⟨himage _ (mentioned_of_free (index_mem_symbols hb)), rfl, rfl⟩
    · rw [used_relabel, List.forall₂_map_right_iff, List.forall₂_same]
      intro i hi
      exact himage i (mentioned_of_used hi)
  · refine ⟨⟨fun ⟨e', h⟩ => ?_, fun h => ?_⟩, fun error h => ?_, fun e' h => ?_⟩
    · rw [herror] at h
      cases h
    · obtain ⟨j, hj⟩ := h i hi
      rw [hnone] at hj
      cases hj
    · rw [herror] at h
      cases h
      exact ⟨i, hi, hnone, rfl⟩
    · rw [herror] at h
      cases h

/-- The free and the summed index of a matrix times a vector change places. -/
theorem component_renamed_swap : ∃ (e e' : Expr (Binary .double)) (r : Renaming), Made e ∧
    Renaming.of [.ofChar 'i', .ofChar 'j'] [.ofChar 'j', .ofChar 'i'] = .ok r ∧ e.renamed r = .ok e' ∧
    e.used = [.ofChar 'j'] ∧ e'.used = [.ofChar 'i'] ∧
    (∀ i ∈ e.mentioned, ∃ j, r.image? i = some j) ∧
    ∀ m values, e'.component m values = e.component m values := by
  let space := Concept.realSpace 2
  let matrix : {e : Expr (Binary .double) // Expr.indexed (.readOnly ⟨0, 4, true⟩)
    [.ofChar 'i', .ofChar 'j'] [space, space] = .ok e} := ⟨_, rfl⟩
  let vector : {e : Expr (Binary .double) // Expr.indexed (.readOnly ⟨4, 2, true⟩)
    [.ofChar 'j'] [space.dual] = .ok e} := ⟨_, rfl⟩
  let e : {e // matrix.1.mul vector.1 = .ok e} := ⟨_, rfl⟩
  let r : {r // Renaming.of [.ofChar 'i', .ofChar 'j'] [.ofChar 'j', .ofChar 'i'] = .ok r} := ⟨_, rfl⟩
  let e' : {e' // e.1.renamed r.1 = .ok e'} := ⟨_, rfl⟩
  have c : Made e.1 := ⟨.product (.indexed _ _ _ matrix.2) (.indexed _ _ _ vector.2) e.2⟩
  obtain ⟨hdefined, -, hrenamed⟩ := component_renamed c r.2
  exact ⟨e.1, e'.1, r.1, c, r.2, e'.2, rfl, rfl, hdefined.1 ⟨_, e'.2⟩, (hrenamed _ e'.2).2.2⟩

end Expr

end TensorCalculus
