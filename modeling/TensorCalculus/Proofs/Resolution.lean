import Mathlib.Algebra.BigOperators.Group.List.Basic
import TensorCalculus.Proofs.Box
import TensorCalculus.Proofs.Dual
import TensorCalculus.Proofs.Rank
import TensorCalculus.Space.Basic

/-!
# What the queries of a based vector space give

A concept of one of the families inherits its field, dimension, basis and vector space from the one
based vector space among its ancestors, and its arguments stand in values of properties, where they
are no ancestors. So every query has one answer, however deep the families are nested
(`Generated.resolves`). The answers of the arguments then determine what the constructor of a family
gives: `combined_eq` and `basedPower_eq` evaluate it, refusals included.
-/

namespace TensorCalculus

theorem Count.foldlM_add_eq_ok {ns : List Nat} {acc n : Nat} (h : ns.foldlM Count.add acc = .ok n) :
    acc + ns.sum = n := by
  induction ns generalizing acc with
  | nil =>
    cases h
    rfl
  | cons m ns ih =>
    rw [List.foldlM_cons] at h
    obtain ⟨acc', hadd, h⟩ := bind_eq_ok.1 h
    obtain ⟨-, rfl⟩ := Count.add_eq_ok.1 hadd
    rw [List.sum_cons, ← Nat.add_assoc]
    exact ih h

theorem Count.sum_eq_ok {ns : List Nat} {n : Nat} (h : Count.sum ns = .ok n) : ns.sum = n := by
  simpa using Count.foldlM_add_eq_ok h

namespace Concept

/-- Answers to the queries of a based vector space. -/
structure Reading where
  scalars : Concept
  dimension : Nat
  space : Concept
  basis : Concept

/-- Every query of the concept has one answer. The field is its own dual. -/
structure Resolves (c : Concept) (r : Reading) : Prop where
  fieldless : c.Fieldless
  scalars_dual : r.scalars.dual = r.scalars
  scalarField : c.scalarField = .ok r.scalars
  dimension : c.dimension = .ok r.dimension
  chosenBasis : c.chosenBasis = .ok r.basis
  vectorSpace : StructureClass.vectorSpace.uniqueOf c = .ok r.space
  basedVectorSpace : StructureClass.basedVectorSpace.uniqueOf c = .ok (.basedVectorSpace r.space r.basis)

def Reading.dual (r : Reading) : Reading := { r with space := r.space.dual, basis := r.basis.dual }

variable {c : Concept} {r : Reading}

theorem Resolves.dual (h : c.Resolves r) : c.dual.Resolves r.dual where
  fieldless := h.fieldless.dual
  scalars_dual := h.scalars_dual
  scalarField := (conceptProperty_dual h.fieldless h.scalarField).trans (congrArg _ h.scalars_dual)
  dimension := countProperty_dual h.dimension
  chosenBasis := conceptProperty_dual h.fieldless h.chosenBasis
  vectorSpace := uniqueOf_dual h.fieldless h.vectorSpace
  basedVectorSpace := uniqueOf_dual h.fieldless h.basedVectorSpace

/-! ### The families -/

theorem fieldless_of_shapes (h : .field ∉ c.ancestors.map shape) : c.Fieldless := by
  intro a ha hshape
  exact h (List.mem_map.2 ⟨a, ha, hshape⟩)

theorem resolves_basedVectorSpace {scalars : Concept} (h : scalars.dual = scalars) (n : Nat)
    (id : PropertyValue) (basis : Concept) :
    (basedVectorSpace (vectorSpace scalars n id) basis).Resolves
      ⟨scalars, n, vectorSpace scalars n id, basis⟩ := by
  refine ⟨fieldless_of_shapes ?_, h, rfl, rfl, rfl, rfl, rfl⟩
  show Structure.field ∉ [.basedVectorSpace, .vectorSpace]
  decide

/-- The structure of a family, and what its concepts are besides based vector spaces. -/
inductive Describes : Structure → Concept → Prop where
  | product (factors : List Concept) : Describes .basedTensorProduct (tensorProduct factors)
  | sum (summands : List Concept) : Describes .basedDirectSum (directSum summands)
  | power (kind : PowerKind) (factor : Concept) (degree : Nat) :
      Describes kind.basedShape (power kind factor degree)

theorem resolves_described {shape : Structure} {what : Concept} (hwhat : Describes shape what)
    {scalars : Concept} (h : scalars.dual = scalars) (n : Nat) (id : PropertyValue) (basis : Concept) :
    (described shape what scalars n id basis).Resolves ⟨scalars, n, vectorSpace scalars n id, basis⟩ := by
  cases hwhat with
  | product factors =>
    refine ⟨fieldless_of_shapes ?_, h, rfl, rfl, rfl, rfl, rfl⟩
    show Structure.field ∉ [.basedTensorProduct, .tensorProduct, .basedVectorSpace, .vectorSpace]
    decide
  | sum summands =>
    refine ⟨fieldless_of_shapes ?_, h, rfl, rfl, rfl, rfl, rfl⟩
    show Structure.field ∉ [.basedDirectSum, .directSum, .basedVectorSpace, .vectorSpace]
    decide
  | power kind factor degree =>
    have hshapes : Structure.field ∉ [kind.basedShape, kind.shape, .basedVectorSpace, .vectorSpace] := by
      cases kind <;> decide
    cases kind <;> exact ⟨fieldless_of_shapes hshapes, h, rfl, rfl, rfl, rfl, rfl⟩

/-! ### The constructors evaluated -/

/-- The field of the first space, which has to be that of all others. -/
def Reading.commonField (shape : Structure) : List Reading → Except ConceptError Concept
  | [] => .error (.empty shape)
  | r :: rs =>
    match rs.find? fun s => s.scalars != r.scalars with
    | some s => .error (.fieldMismatch r.scalars s.scalars)
    | none => .ok r.scalars

/-- The dimensions, combined from the left. -/
def Reading.fold (combine : Nat → Nat → Checked Nat) (unit : Nat) (rs : List Reading) : Checked Nat :=
  (rs.map Reading.dimension).foldlM combine unit

section Evaluated
variable {spaces : List Concept} {rs : List Reading}

theorem forM_checkField (h : List.Forall₂ Resolves spaces rs) (scalars : Concept) :
    spaces.forM (checkField scalars) =
      match rs.find? fun s => s.scalars != scalars with
      | some s => .error (.fieldMismatch scalars s.scalars)
      | none => .ok () := by
  induction h with
  | nil => rfl
  | @cons c r spaces rs hc _ ih =>
    show (checkField scalars c >>= fun _ => spaces.forM (checkField scalars)) = _
    rw [checkField, hc.scalarField, ok_bind, List.find?_cons]
    by_cases hr : r.scalars = scalars
    · rw [if_pos hr, ok_bind, ih, hr, bne_self_eq_false]
    · rw [if_neg hr, bne_iff_ne.2 hr]
      rfl

theorem commonField_eq (h : List.Forall₂ Resolves spaces rs) (shape : Structure) :
    commonField shape spaces = Reading.commonField shape rs := by
  cases h with
  | nil => rfl
  | @cons c r spaces rs hc hrest =>
    rw [commonField, hc.scalarField, ok_bind, forM_checkField hrest, Reading.commonField]
    cases rs.find? fun s => s.scalars != r.scalars <;> rfl

theorem foldDimensions_eq (h : List.Forall₂ Resolves spaces rs) (combine : Nat → Nat → Checked Nat)
    (acc : Nat) : foldDimensions combine acc spaces = Reading.fold combine acc rs := by
  induction h generalizing acc with
  | nil => rfl
  | @cons c r spaces rs hc _ ih =>
    rw [foldDimensions, List.foldlM_cons, hc.dimension]
    show (liftM (combine acc r.dimension) >>= fun acc => foldDimensions combine acc spaces) =
      liftM (combine acc r.dimension >>= fun acc => Reading.fold combine acc rs)
    cases combine acc r.dimension with
    | error fault => rfl
    | ok acc' => exact ih acc'

theorem splitBased_eq (h : List.Forall₂ Resolves spaces rs) :
    splitBased spaces = .ok (rs.map Reading.space, rs.map Reading.basis) := by
  have hspaces : spaces.mapM StructureClass.vectorSpace.uniqueOf = .ok (rs.map Reading.space) := by
    rw [mapM_eq_ok, List.forall₂_map_right_iff]
    exact h.imp fun _ _ hc => hc.vectorSpace
  have hbases : spaces.mapM chosenBasis = .ok (rs.map Reading.basis) := by
    rw [mapM_eq_ok, List.forall₂_map_right_iff]
    exact h.imp fun _ _ hc => hc.chosenBasis
  rw [splitBased, hspaces, hbases]
  rfl

theorem combined_eq (h : List.Forall₂ Resolves spaces rs) (shape : Structure)
    (join : List Concept → Concept) (combine : Nat → Nat → Checked Nat) (unit : Nat) :
    combined shape join combine unit spaces = (do
      let scalars ← Reading.commonField shape rs
      let n ← Reading.fold combine unit rs
      return described shape (join spaces) scalars n (.concept (join (rs.map Reading.space)))
        (basis (.concept (join (rs.map Reading.basis))))) := by
  rw [combined, commonField_eq h, foldDimensions_eq h, splitBased_eq h]
  rfl

theorem basedPower_eq (h : c.Resolves r) (kind : PowerKind) (degree : Nat) :
    basedPower kind c degree = (do
      let n ← kind.dimension r.dimension degree
      return described kind.basedShape (power kind c degree) r.scalars n
        (.concept (power kind r.space degree)) (basis (.concept (power kind r.basis degree)))) := by
  rw [basedPower, h.scalarField, h.dimension, h.vectorSpace, h.chosenBasis]
  rfl

theorem scalars_of_commonField {shape : Structure} {scalars : Concept}
    (h : Reading.commonField shape rs = .ok scalars) : rs ≠ [] ∧ ∀ r ∈ rs, r.scalars = scalars := by
  cases rs with
  | nil => cases h
  | cons r rs =>
    rw [Reading.commonField] at h
    split at h
    · cases h
    next hfind =>
    cases h
    refine ⟨by simp, ?_⟩
    rw [List.forall_mem_cons]
    exact ⟨rfl, fun s hs => by simpa using List.find?_eq_none.1 hfind s hs⟩

theorem scalars_dual_of_commonField (h : List.Forall₂ Resolves spaces rs) {shape : Structure}
    {scalars : Concept} (hscalars : Reading.commonField shape rs = .ok scalars) : scalars.dual = scalars := by
  obtain ⟨hne, hall⟩ := scalars_of_commonField hscalars
  obtain ⟨r, hr⟩ := List.exists_mem_of_ne_nil _ hne
  obtain ⟨c, -, hc⟩ := forall₂_exists_right h.flip hr
  rw [← hall r hr]
  exact hc.scalars_dual

theorem resolves_of_combined {shape : Structure} {what scalars : Concept} {combine : Nat → Nat → Checked Nat}
    {unit n : Nat} (h : List.Forall₂ Resolves spaces rs) (hwhat : Describes shape what)
    (hscalars : commonField shape spaces = .ok scalars) (hn : foldDimensions combine unit spaces = .ok n)
    (id : PropertyValue) (basis : Concept) :
    (described shape what scalars n id basis).Resolves ⟨scalars, n, vectorSpace scalars n id, basis⟩ ∧
      Reading.fold combine unit rs = .ok n := by
  rw [commonField_eq h] at hscalars
  rw [foldDimensions_eq h] at hn
  exact ⟨resolves_described hwhat (scalars_dual_of_commonField h hscalars) n id basis, liftFault_eq_ok.1 hn⟩

theorem basedTensorProduct_eq_described (h : List.Forall₂ Resolves spaces rs)
    (hc : basedTensorProduct spaces = .ok c) : ∃ r id basis,
      c = described .basedTensorProduct (tensorProduct spaces) r.scalars r.dimension id basis ∧
      c.Resolves r ∧ Reading.fold Count.mul 1 rs = .ok r.dimension := by
  obtain ⟨scalars, n, id, basis, hscalars, hn, rfl⟩ := basedTensorProduct_eq_ok hc
  exact ⟨_, id, basis, rfl, resolves_of_combined h (.product spaces) hscalars hn id basis⟩

theorem basedDirectSum_eq_described (h : List.Forall₂ Resolves spaces rs)
    (hc : basedDirectSum spaces = .ok c) : ∃ r id basis,
      c = described .basedDirectSum (directSum spaces) r.scalars r.dimension id basis ∧
      c.Resolves r ∧ Reading.fold Count.add 0 rs = .ok r.dimension := by
  obtain ⟨scalars, n, id, basis, hscalars, hn, rfl⟩ := basedDirectSum_eq_ok hc
  exact ⟨_, id, basis, rfl, resolves_of_combined h (.sum spaces) hscalars hn id basis⟩

theorem basedPower_eq_described {kind : PowerKind} {factor : Concept} {degree : Nat}
    (h : factor.Resolves r) (hc : basedPower kind factor degree = .ok c) :
    ∃ r' id basis,
      c = described kind.basedShape (power kind factor degree) r'.scalars r'.dimension id basis ∧
      c.Resolves r' ∧ kind.dimension r.dimension degree = .ok r'.dimension := by
  obtain ⟨scalars, d, n, id, basis, hscalars, hd, hn, rfl⟩ := basedPower_eq_ok hc
  obtain rfl := Except.ok.inj (h.scalarField.symm.trans hscalars)
  obtain rfl := Except.ok.inj (h.dimension.symm.trans hd)
  exact ⟨_, id, basis, rfl, resolves_described (.power kind factor degree) h.scalars_dual n id basis, hn⟩

end Evaluated

/-! ### Everything that is generated -/

theorem exists_readings {spaces : List Concept} (h : ∀ c ∈ spaces, ∃ r, c.Resolves r) :
    ∃ rs, List.Forall₂ Resolves spaces rs := by
  induction spaces with
  | nil => exact ⟨[], .nil⟩
  | cons c spaces ih =>
    obtain ⟨r, hr⟩ := h c (by simp)
    obtain ⟨rs, hrs⟩ := ih fun c hc => h c (by simp [hc])
    exact ⟨r :: rs, .cons hr hrs⟩

theorem Generated.resolves (h : Generated c) : ∃ r, c.Resolves r := by
  induction h with
  | space hscalars n id basis =>
    obtain ⟨tag, rfl⟩ := hscalars
    exact ⟨_, resolves_basedVectorSpace rfl n id basis⟩
  | product _ h ih =>
    obtain ⟨rs, hrs⟩ := exists_readings ih
    obtain ⟨r, -, -, -, hr, -⟩ := basedTensorProduct_eq_described hrs h
    exact ⟨r, hr⟩
  | sum _ h ih =>
    obtain ⟨rs, hrs⟩ := exists_readings ih
    obtain ⟨r, -, -, -, hr, -⟩ := basedDirectSum_eq_described hrs h
    exact ⟨r, hr⟩
  | power _ h ih =>
    obtain ⟨r, hr⟩ := ih
    obtain ⟨r', -, -, -, hr', -⟩ := basedPower_eq_described hr h
    exact ⟨r', hr'⟩
  | dual _ ih =>
    obtain ⟨r, hr⟩ := ih
    exact ⟨r.dual, hr.dual⟩

/-- How a product or a sum of spaces is judged: refused if there are none or two of them are over different
fields, and otherwise made. -/
inductive Verdict (shape : Structure) (spaces : List Concept) : Outcome ConceptError Concept → Prop where
  | empty (h : spaces = []) : Verdict shape spaces (Outcome.refuse (.empty shape))
  | mismatch {scalars scalars' : Concept} (hne : scalars ≠ scalars')
      (h : ∃ c ∈ spaces, c.scalarField = .ok scalars) (h' : ∃ c ∈ spaces, c.scalarField = .ok scalars') :
      Verdict shape spaces (Outcome.refuse (.fieldMismatch scalars scalars'))
  | made {scalars c : Concept} (hne : spaces ≠ []) (h : ∀ c ∈ spaces, c.scalarField = .ok scalars) :
      Verdict shape spaces (.ok c)

theorem verdict_combined {spaces : List Concept} {rs : List Reading} (h : List.Forall₂ Resolves spaces rs)
    (shape : Structure) (join : List Concept → Concept) {combine : Nat → Nat → Checked Nat} {unit n : Nat}
    (hn : Reading.fold combine unit rs = .ok n) :
    Verdict shape spaces (combined shape join combine unit spaces) := by
  rw [combined_eq h, hn]
  cases hscalars : Reading.commonField shape rs with
  | ok scalars =>
    obtain ⟨hne, hall⟩ := scalars_of_commonField hscalars
    have hfields : ∀ c ∈ spaces, c.scalarField = .ok scalars := by
      intro c hc
      obtain ⟨r, hr, hcr⟩ := forall₂_exists_right h hc
      rw [hcr.scalarField, hall r hr]
    refine .made ?_ hfields
    rintro rfl
    cases h
    exact hne rfl
  | error e =>
    cases h with
    | nil =>
      cases hscalars
      exact .empty rfl
    | @cons c r spaces rs hc hrest =>
      rw [Reading.commonField] at hscalars
      split at hscalars
      swap
      · cases hscalars
      next s hfind =>
      cases hscalars
      have hs := List.mem_of_find?_eq_some hfind
      have hne : s.scalars ≠ r.scalars := by simpa using List.find?_some hfind
      obtain ⟨d, hd, hds⟩ := forall₂_exists_right hrest.flip hs
      exact .mismatch hne.symm ⟨c, by simp, hc.scalarField⟩
        ⟨d, by simp [hd], hds.scalarField⟩

end Concept

/-! ### Spaces as they are put together -/

open TensorCalculus.Concept (Reading Resolves Generated)

mutual

/-- The dimension that is read off a space is the one that its concept states. -/
theorem Space.concept_resolves : (s : Space) → ∀ c, s.concept = .ok c →
    Generated c ∧ ∃ r, c.Resolves r ∧ s.dimension = .ok r.dimension
  | .based scalars n tag orthonormal basisTag, c, h => by
    cases h
    exact ⟨.space .., _, Concept.resolves_basedVectorSpace rfl n _ _, rfl⟩
  | .product factors, c, h => by
    obtain ⟨cs, hcs, h⟩ := bind_eq_ok.1 h
    obtain ⟨hgenerated, rs, hrs, hproduct, -⟩ := Space.conceptList_resolves factors cs hcs
    obtain ⟨r, -, -, -, hr, hfold⟩ := Concept.basedTensorProduct_eq_described hrs h
    exact ⟨.product hgenerated h, r, hr, (hproduct 1).trans hfold⟩
  | .sum summands, c, h => by
    obtain ⟨cs, hcs, h⟩ := bind_eq_ok.1 h
    obtain ⟨hgenerated, rs, hrs, -, hsum⟩ := Space.conceptList_resolves summands cs hcs
    obtain ⟨r, -, -, -, hr, hfold⟩ := Concept.basedDirectSum_eq_described hrs h
    exact ⟨.sum hgenerated h, r, hr, (hsum 0).trans hfold⟩
  | .power kind degree factor, c, h => by
    obtain ⟨f, hf, h⟩ := bind_eq_ok.1 h
    obtain ⟨hgenerated, r, hr, hdim⟩ := Space.concept_resolves factor f hf
    obtain ⟨r', -, -, -, hr', hdim'⟩ := Concept.basedPower_eq_described hr h
    refine ⟨.power hgenerated h, r', hr', ?_⟩
    rw [Space.dimension, hdim, ok_bind, hdim']

theorem Space.conceptList_resolves : (ss : List Space) → ∀ cs, Space.conceptList ss = .ok cs →
    (∀ c ∈ cs, Generated c) ∧ ∃ rs, List.Forall₂ Resolves cs rs ∧
      (∀ acc, Space.dimensionProduct acc ss = Reading.fold Count.mul acc rs) ∧
      ∀ acc, Space.dimensionSum acc ss = Reading.fold Count.add acc rs
  | [], cs, h => by
    cases h
    exact ⟨by simp, [], .nil, fun _ => rfl, fun _ => rfl⟩
  | s :: ss, cs, h => by
    obtain ⟨c, hc, h⟩ := bind_eq_ok.1 h
    obtain ⟨cs, hcs, h⟩ := bind_eq_ok.1 h
    cases h
    obtain ⟨hgenerated, r, hr, hdim⟩ := Space.concept_resolves s c hc
    obtain ⟨hgenerated', rs, hrs, hproduct, hsum⟩ := Space.conceptList_resolves ss cs hcs
    refine ⟨List.forall_mem_cons.2 ⟨hgenerated, hgenerated'⟩, r :: rs, .cons hr hrs, fun acc => ?_,
      fun acc => ?_⟩
    · rw [Space.dimensionProduct, hdim, ok_bind]
      simp only [hproduct]
      rfl
    · rw [Space.dimensionSum, hdim, ok_bind]
      simp only [hsum]
      rfl

end

namespace Concept

theorem forall₂_dimension_readings {spaces : List Concept} {rs : List Reading}
    (h : List.Forall₂ Resolves spaces rs) :
    List.Forall₂ (fun c n => c.dimension = .ok n) spaces (rs.map Reading.dimension) :=
  List.forall₂_map_right_iff.2 (h.imp fun _ _ hc => hc.dimension)

/-- Of all that is generated, every query has one answer; the arguments of a constructor can be asked for
and their dimensions give that of the result. Where no dimension is too large, a constructor refuses only
an empty list or spaces over different fields. -/
theorem Generated.queries_total :
    (∀ c, Generated c → ∃ n scalars basis space, c.dimension = .ok n ∧ c.dual.dimension = .ok n ∧
      c.scalarField = .ok scalars ∧ c.chosenBasis = .ok basis ∧
      StructureClass.vectorSpace.uniqueOf c = .ok space ∧
      StructureClass.basedVectorSpace.uniqueOf c = .ok (.basedVectorSpace space basis)) ∧
    (∀ factors, (∀ f ∈ factors, Generated f) →
      ∃ dims, List.Forall₂ (fun f n => f.dimension = .ok n) factors dims ∧
        (∀ c, basedTensorProduct factors = .ok c →
          c.factorList = .ok factors ∧ c.dimension = .ok dims.prod) ∧
        ∀ n, Count.product dims = .ok n →
          Verdict .basedTensorProduct factors (basedTensorProduct factors)) ∧
    (∀ summands, (∀ f ∈ summands, Generated f) →
      ∃ dims, List.Forall₂ (fun f n => f.dimension = .ok n) summands dims ∧
        (∀ c, basedDirectSum summands = .ok c →
          c.summandList = .ok summands ∧ c.dimension = .ok dims.sum) ∧
        ∀ n, Count.sum dims = .ok n → Verdict .basedDirectSum summands (basedDirectSum summands)) ∧
    (∀ kind factor degree, Generated factor → ∃ n, factor.dimension = .ok n ∧
      (∀ c, basedPower kind factor degree = .ok c →
        c.powerFactor = .ok factor ∧ c.degree = .ok degree ∧
        c.dimension = .ok (match kind with
          | .symmetric => if degree = 0 then 1 else (n + degree - 1).choose degree
          | .exterior => n.choose degree)) ∧
      ∀ d, kind.dimension n degree = .ok d → ∃ c, basedPower kind factor degree = .ok c) ∧
    ∀ (s : Space) c, s.concept = .ok c →
      Generated c ∧ ∃ n, s.dimension = .ok n ∧ c.dimension = .ok n := by
  refine ⟨fun c hc => ?_, fun factors hfactors => ?_, fun summands hsummands => ?_,
    fun kind factor degree hfactor => ?_, fun s c hc => ?_⟩
  · obtain ⟨r, hr⟩ := hc.resolves
    exact ⟨_, _, _, _, hr.dimension, hr.dual.dimension, hr.scalarField, hr.chosenBasis, hr.vectorSpace,
      hr.basedVectorSpace⟩
  · obtain ⟨rs, hrs⟩ := exists_readings fun f hf => (hfactors f hf).resolves
    refine ⟨_, forall₂_dimension_readings hrs, fun c hc => ?_, fun n hn => ?_⟩
    swap
    · rw [basedTensorProduct_eq_combined]
      exact verdict_combined hrs _ _ hn
    obtain ⟨r, id, basis, rfl, hr, hfold⟩ := basedTensorProduct_eq_described hrs hc
    exact ⟨rfl, hr.dimension.trans (congrArg _ (Count.product_eq_ok hfold).1.symm)⟩
  · obtain ⟨rs, hrs⟩ := exists_readings fun f hf => (hsummands f hf).resolves
    refine ⟨_, forall₂_dimension_readings hrs, fun c hc => ?_, fun n hn => ?_⟩
    swap
    · rw [basedDirectSum_eq_combined]
      exact verdict_combined hrs _ _ hn
    obtain ⟨r, id, basis, rfl, hr, hfold⟩ := basedDirectSum_eq_described hrs hc
    exact ⟨rfl, hr.dimension.trans (congrArg _ (Count.sum_eq_ok hfold).symm)⟩
  · obtain ⟨r, hr⟩ := hfactor.resolves
    refine ⟨r.dimension, hr.dimension, fun c hc => ?_, fun d hd => ?_⟩
    · obtain ⟨r', id, basis, rfl, hr', hdim⟩ := basedPower_eq_described hr hc
      obtain ⟨hchoose, -⟩ := PowerKind.dimension_eq_ok hdim
      rw [hr'.dimension, hchoose]
      cases kind with
      | symmetric => exact ⟨rfl, rfl, by split <;> simp_all [PowerKind.codeBound]⟩
      | exterior => exact ⟨rfl, rfl, rfl⟩
    · rw [basedPower_eq hr, hd]
      exact ⟨_, rfl⟩
  · obtain ⟨hgenerated, r, hr, hdim⟩ := s.concept_resolves c hc
    exact ⟨hgenerated, r.dimension, hdim, hr.dimension⟩

/-- The quadratic forms on the operators of a plane. -/
theorem Generated.queries_total_quadratic : ∃ plane operators forms : Concept, Generated plane ∧
    basedTensorProduct [plane, plane.dual] = .ok operators ∧ operators.factorList = .ok [plane, plane.dual] ∧
    basedPower .symmetric operators 2 = .ok forms ∧ forms.powerFactor = .ok operators ∧
    forms.degree = .ok 2 ∧ forms.dimension = .ok 10 := by
  let plane := realSpace 2
  have hplane := generated_realSpace 2
  have hfactors : ∀ f ∈ [plane, plane.dual], Generated f := by simpa using ⟨hplane, hplane.dual⟩
  obtain ⟨-, hproduct, -, hpower, -⟩ := Generated.queries_total
  let operators : {c // basedTensorProduct [plane, plane.dual] = .ok c} := ⟨_, rfl⟩
  have hoperators : Generated operators.1 := .product hfactors operators.2
  obtain ⟨dims, hdims, hproduct, -⟩ := hproduct _ hfactors
  obtain ⟨n, hn, hforms, hmade⟩ := hpower .symmetric operators.1 2 hoperators
  obtain rfl : 4 = n := Except.ok.inj hn
  obtain ⟨forms, h⟩ := hmade 10 rfl
  obtain ⟨hfactor, hdegree, hdim⟩ := hforms forms h
  exact ⟨plane, operators.1, forms, hplane, operators.2, (hproduct _ operators.2).1, h, hfactor, hdegree, hdim⟩

end Concept

end TensorCalculus
