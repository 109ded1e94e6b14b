import TensorCalculus.Proofs.Acceptance
import TensorCalculus.Proofs.Bundling
import TensorCalculus.Proofs.Functor
import TensorCalculus.Proofs.Safety
import TensorCalculus.Tensor.Basic

/-!
# Tensors on spaces

A tensor on a space holds as many components as the space has dimensions (`Tensor.Inhabits`). Indices
written on it range over the factors of a tensor product, and over the space itself in every other case
(`Space.factors_product`, `Space.factors_of_ne_product`); those of the dual space are dual to them
(`Space.factors_dual`). With distinct symbols written on it, the component at some values is the one stored
at their row-major position (`Tensor.Written`), and a product of two such expressions adds up products of
stored components (`Tensor.Written.mul`).
-/

namespace TensorCalculus

/-! ### What indices range over -/

namespace Concept
variable {c : Concept} {r : Reading}

theorem indexedFactors_basedTensorProduct {factors : List Concept} (h : basedTensorProduct factors = .ok c) :
    c.indexedFactors = .ok factors := by
  obtain ⟨-, hhas, hunique, hfactors⟩ := queries_basedTensorProduct h
  rw [indexedFactors, if_pos hhas, hunique]
  exact hfactors

theorem indexedFactors_of_not_hasUnique (h : StructureClass.basedTensorProduct.hasUnique c = false) :
    c.indexedFactors = .ok [c] := by
  rw [indexedFactors, if_neg (by simp [h])]
  rfl

end Concept

mutual

theorem Space.dimension_dual : (s : Space) → s.dual.dimension = s.dimension
  | .based scalars n tag orthonormal basisTag => rfl
  | .product factors => by
    rw [Space.dual, Space.dimension, Space.dimension, Space.dimensionProduct_dual factors 1]
  | .sum summands => by
    rw [Space.dual, Space.dimension, Space.dimension, Space.dimensionSum_dual summands 0]
  | .power kind degree factor => by
    rw [Space.dual, Space.dimension, Space.dimension, Space.dimension_dual factor]

theorem Space.dimensionProduct_dual : (ss : List Space) → ∀ acc,
    Space.dimensionProduct acc (Space.dualList ss) = Space.dimensionProduct acc ss
  | [], _ => rfl
  | s :: ss, acc => by
    rw [Space.dualList, Space.dimensionProduct, Space.dimensionProduct, Space.dimension_dual s]
    exact bind_congr fun d => bind_congr fun n => Space.dimensionProduct_dual ss n

theorem Space.dimensionSum_dual : (ss : List Space) → ∀ acc,
    Space.dimensionSum acc (Space.dualList ss) = Space.dimensionSum acc ss
  | [], _ => rfl
  | s :: ss, acc => by
    rw [Space.dualList, Space.dimensionSum, Space.dimensionSum, Space.dimension_dual s]
    exact bind_congr fun d => bind_congr fun n => Space.dimensionSum_dual ss n

end

namespace Space
variable {s : Space} {c : Concept} {fs : List Concept}

theorem factors_product {ss : List Space} {cs : List Concept} (hcs : conceptList ss = .ok cs)
    (hc : (product ss).concept = .ok c) : (product ss).factors = .ok cs := by
  rw [factors, hc]
  rw [concept, hcs] at hc
  exact liftError_eq_ok.2 (Concept.indexedFactors_basedTensorProduct hc)

theorem factors_of_ne_product (hc : s.concept = .ok c) (hs : ∀ ss, s ≠ .product ss) :
    s.factors = .ok [c] := by
  rw [factors, hc]
  refine liftError_eq_ok.2 (Concept.indexedFactors_of_not_hasUnique ?_)
  cases s with
  | based scalars n tag orthonormal basisTag =>
    cases hc
    cases orthonormal <;> rfl
  | product ss => exact absurd rfl (hs ss)
  | sum ss =>
    obtain ⟨cs, hcs, hc⟩ := bind_eq_ok.1 hc
    obtain ⟨-, rs, hrs, -⟩ := conceptList_resolves ss cs hcs
    obtain ⟨r, id, basis, rfl, -⟩ := Concept.basedDirectSum_eq_described hrs hc
    rfl
  | power kind degree factor =>
    obtain ⟨f, hf, hc⟩ := bind_eq_ok.1 hc
    obtain ⟨-, r, hr, -⟩ := factor.concept_resolves f hf
    obtain ⟨r', id, basis, rfl, -⟩ := Concept.basedPower_eq_described hr hc
    cases kind <;> rfl

theorem length_conceptList {ss : List Space} {cs : List Concept} (h : conceptList ss = .ok cs) :
    cs.length = ss.length := by
  induction ss generalizing cs with
  | nil =>
    cases h
    rfl
  | cons s ss ih =>
    obtain ⟨c, -, h⟩ := bind_eq_ok.1 h
    obtain ⟨cs, hcs, h⟩ := bind_eq_ok.1 h
    cases h
    rw [List.length_cons, List.length_cons, ih hcs]

theorem factors_cases (h : s.factors = .ok fs) :
    (∃ ss c, s = .product ss ∧ conceptList ss = .ok fs ∧ s.concept = .ok c) ∨
      (∀ ss, s ≠ .product ss) ∧ ∃ c, s.concept = .ok c ∧ fs = [c] := by
  obtain ⟨c, hc, -⟩ := bind_eq_ok.1 h
  by_cases hs : ∃ ss, s = .product ss
  · obtain ⟨ss, rfl⟩ := hs
    obtain ⟨cs, hcs, -⟩ := bind_eq_ok.1 hc
    obtain rfl := Except.ok.inj (h.symm.trans (factors_product hcs hc))
    exact .inl ⟨ss, c, rfl, hcs, hc⟩
  · have hne : ∀ ss, s ≠ .product ss := fun ss hss => hs ⟨ss, hss⟩
    obtain rfl := Except.ok.inj (h.symm.trans (factors_of_ne_product hc hne))
    exact .inr ⟨hne, c, hc, rfl⟩

theorem factors_dual (h : s.factors = .ok fs) : s.dual.factors = .ok (fs.map Concept.dual) := by
  rcases factors_cases h with ⟨ss, c, rfl, hfs, hc⟩ | ⟨hne, c, hc, rfl⟩
  · have hdual : (product ss).dual.concept = .ok c.dual := by rw [concept_dual, hc]; rfl
    exact factors_product (by rw [conceptList_dual, hfs]; rfl) hdual
  · refine factors_of_ne_product (by rw [concept_dual, hc]; rfl) fun ss hss => ?_
    cases s with
    | product ss => exact hne ss rfl
    | _ => cases hss

theorem length_factors_le (h : s.factors = .ok fs) (hs : ∀ ss, s = .product ss → ss.length ≤ maxRank) :
    fs.length ≤ maxRank := by
  rcases factors_cases h with ⟨ss, c, rfl, hfs, -⟩ | ⟨-, c, -, rfl⟩
  · rw [length_conceptList hfs]
    exact hs ss rfl
  · exact show 1 ≤ maxRank by decide

theorem generated_of_factors (h : s.factors = .ok fs) : fs ≠ [] ∧ ∀ f ∈ fs, Concept.Generated f := by
  rcases factors_cases h with ⟨ss, c, rfl, hfs, hc⟩ | ⟨-, c, hc, rfl⟩
  · rw [concept, hfs] at hc
    exact ⟨(Concept.queries_basedTensorProduct hc).1, (conceptList_resolves ss fs hfs).1⟩
  · exact ⟨by simp, by simpa using (concept_resolves s c hc).1⟩

theorem dimension_of_concept (hc : s.concept = .ok c) {n : Nat} (hn : s.dimension = .ok n) :
    c.dimension = .ok n := by
  obtain ⟨-, r, hr, hdim⟩ := concept_resolves s c hc
  rw [hr.dimension, Except.ok.inj (hdim.symm.trans hn)]

theorem dimension_of_factors (h : s.factors = .ok fs) {n : Nat} (hn : s.dimension = .ok n) :
    ∃ dims, List.Forall₂ (fun f d => f.dimension = .ok d) fs dims ∧ Box.size dims = n := by
  rcases factors_cases h with ⟨ss, c, rfl, hfs, hc⟩ | ⟨-, c, hc, rfl⟩
  · obtain ⟨-, rs, hrs, hproduct, -⟩ := conceptList_resolves ss fs hfs
    rw [dimension, hproduct] at hn
    exact ⟨_, Concept.forall₂_dimension_readings hrs, (Count.product_eq_ok hn).1⟩
  · exact ⟨[n], .cons (dimension_of_concept hc hn) .nil, Nat.mul_one _⟩

end Space

/-! ### Tensors on a space -/

namespace Tensor
variable {α : Type} {m : Memory α} {C : Space} {t x y : Tensor α}

/-- The tensor is a value of the space, and all its components are there. -/
structure Inhabits (m : Memory α) (C : Space) (t : Tensor α) : Prop where
  on_eq : Tensor.on C t.storage = .ok t
  dimension_eq : C.dimension = .ok t.storage.count
  valid : t.storage.Valid m
  count_lt : t.storage.count < Count.limit

theorem Inhabits.factors_eq (h : t.Inhabits m C) : C.factors = .ok t.factors := by
  obtain ⟨fs, hfs, ht⟩ := bind_eq_ok.1 h.on_eq
  rw [hfs, ← congrArg Tensor.factors (Except.ok.inj ht)]

theorem Inhabits.fills (h : t.Inhabits m C) : t.storage.Fills m t.factors := by
  obtain ⟨dims, hdims, hsize⟩ := Space.dimension_of_factors h.factors_eq h.dimension_eq
  refine ⟨h.valid, fun c hc => ((Space.generated_of_factors h.factors_eq).2 c hc).based, ?_, h.count_lt⟩
  rw [Concept.map_extent hdims, hsize]

/-! ### Distinct symbols written on a tensor -/

variable [Scalar α]

/-- `e` is the tensor with the symbols written on it. -/
structure Written (m : Memory α) (t : Tensor α) (written : List Index) (dims : List Nat) (e : Expr α) :
    Prop where
  indexed_eq : t.indexed written = .ok e
  evaluable : Expr.Evaluable m e
  free_eq : e.free = boundIndices written t.factors dims
  symbols_eq : symbols e.free = written
  dims_eq : e.free.map BoundIndex.dim = dims
  used_eq : e.used = []
  read_eq : ∀ env, InRange e.free env →
    e.componentAt m env = m.read t.storage (Box.position (written.map env) dims)

theorem exists_written {written : List Index} {dims : List Nat} (hfills : t.storage.Fills m t.factors)
    (hdims : List.Forall₂ (fun c d => c.dimension = .ok d) t.factors dims)
    (hlength : written.length = t.factors.length) (hrank : written.length ≤ maxRank)
    (hnodup : written.Nodup) : ∃ e, t.Written m written dims e := by
  have hcount : ∀ i, written.count i ≤ 1 := List.nodup_iff_count_le_one.1 hnodup
  obtain ⟨e, he⟩ := Expr.indexed_ok t.storage hlength hrank hdims (fun i => (hcount i).trans (by decide))
    (.of_nodup hnodup)
  have hevaluable : Expr.Evaluable m e := Expr.evaluable_indexed hfills he
  have hrepeated : repeatedSymbols written = [] := by
    refine List.eq_nil_iff_forall_not_mem.2 fun i hi => ?_
    exact absurd (mem_repeatedSymbols.1 hi) (by have := hcount i; omega)
  have hoccurring : Occurrence.occurring 2 written = [] := by
    refine List.eq_nil_iff_forall_not_mem.2 fun i hi => ?_
    exact absurd (Occurrence.mem_occurring.1 hi).2 (by have := hcount i; omega)
  have hused := Expr.indexed_used he
  obtain ⟨l, rfl, hstorage, rfl, hl⟩ := Expr.indexed_eq_ok he
  obtain rfl : l.dims = dims := (Concept.map_extent hl.dimension).symm.trans (Concept.map_extent hdims)
  have hfree : (Expr.leaf l).free = boundIndices l.written t.factors l.dims := by
    show l.free = _
    rw [hl.free_eq, hrepeated]
    exact List.filter_true _
  have hsymbols : symbols (Expr.leaf l).free = l.written := hfree ▸ hl.symbols_bound
  have hdimsFree : (Expr.leaf l).free.map BoundIndex.dim = l.dims :=
    hfree ▸ dims_boundIndices hlength hdims.length_eq
  refine ⟨_, he, hevaluable, hfree, hsymbols, hdimsFree, hused.trans hoccurring, fun env henv => ?_⟩
  have hbox := inBox_iff_inRange.2 henv
  rw [hsymbols, hdimsFree] at hbox
  have hsize : Box.size l.dims = t.storage.count := by rw [hfills.count_eq, Concept.map_extent hdims]
  rw [Expr.componentAt_leaf m env hl, hrepeated, sumOver, if_pos List.isEmpty_nil, hstorage,
    Box.flatten_eq hbox (hsize ▸ Nat.le_of_lt hfills.count_lt)]
  rfl

/-- On a space that is no product one index is written. -/
theorem Inhabits.written_single {X : Space} {w : Nat} (h : x.Inhabits m X) (hX : ∀ ss, X ≠ .product ss)
    (hw : X.dimension = .ok w) (j : Index) : ∃ c e, X.concept = .ok c ∧ x.Written m [j] [w] e ∧
      e.free = [⟨j, c, w⟩] := by
  rcases Space.factors_cases h.factors_eq with ⟨ss, -, hss, -⟩ | ⟨-, c, hc, hfactors⟩
  · exact absurd hss (hX ss)
  · have hdims : List.Forall₂ (fun c n => c.dimension = .ok n) [c] [w] :=
      .cons (Space.dimension_of_concept hc hw) .nil
    obtain ⟨e, he⟩ := exists_written h.fills (hfactors ▸ hdims) (show [j].length = _ by rw [hfactors]; rfl)
      (show 1 ≤ maxRank by decide) (by simp)
    refine ⟨c, e, hc, he, ?_⟩
    rw [he.free_eq, hfactors]
    rfl

theorem Written.mul {is js : List Index} {ds es : List Nat} {e f : Expr α} (he : x.Written m is ds e)
    (hf : y.Written m js es f) (hdual : Expr.DualWhereShared e.free f.free)
    (hrank : (without e.free js).length + (without f.free is).length ≤ maxRank) :
    ∃ p, e.mul f = .ok p ∧ Expr.Evaluable m p ∧ p.free = without e.free js ++ without f.free is ∧
      ∀ env, InRange p.free env → p.componentAt m env =
        sumOver (Occurrence.common is js) ((Occurrence.common is js).map (extentOf e.free))
          (fun env => do
            return (← m.read x.storage (Box.position (is.map env) ds)) *
              (← m.read y.storage (Box.position (js.map env) es))) env := by
  have hl := he.evaluable.toSound
  have hr := hf.evaluable.toSound
  have hcompatible : Expr.Compatible e f := ⟨by simp [he.used_eq], by simp [hf.used_eq]⟩
  obtain ⟨p, hp⟩ := (hl.mul_ok_iff hr).2 ⟨hcompatible, hdual, by rwa [he.symbols_eq, hf.symbols_eq]⟩
  have hfree := Expr.mul_free hp hl.nodup hr.nodup
  rw [he.symbols_eq, hf.symbols_eq] at hfree
  refine ⟨p, hp, he.evaluable.mul hf.evaluable hp, hfree, fun env henv => ?_⟩
  obtain ⟨plan, rfl, hplan⟩ := Expr.mul_eq_ok hp hl.nodup hr.nodup
  rw [Expr.componentAt_product m env hplan hl.toWellFormed hr.toWellFormed, he.symbols_eq, hf.symbols_eq]
  refine sumOver_congr fun values hvalues => ?_
  obtain ⟨hrange, hrange'⟩ := Expr.inRange_of_contracts hplan hl.toWellFormed hr.toWellFormed hl.dimension
    hr.dimension henv (by rwa [he.symbols_eq, hf.symbols_eq])
  rw [he.symbols_eq, hf.symbols_eq] at hrange hrange'
  rw [he.read_eq _ hrange, hf.read_eq _ hrange']

end Tensor
end TensorCalculus
