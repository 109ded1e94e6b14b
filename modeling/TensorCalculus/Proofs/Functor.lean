import TensorCalculus.Proofs.Resolution

/-!
# The dual goes through the families

The constructors ask their arguments for a field, dimensions, vector spaces and bases. In the dual
arguments the field and the dimensions are the same and the rest is dual (`Resolves.dual`), so the
constructor gives the dual concept, or refuses in the same way (`combined_dual`, `basedPower_dual`).
Dualizing a space as it is put together is then dualizing its concept (`Space.concept_dual`).
-/

namespace TensorCalculus

namespace Concept
variable {c : Concept} {r : Reading} {spaces : List Concept} {rs : List Reading}

theorem dual_described {shape : Structure} (h : shape ≠ .field) (what scalars : Concept) (n : Nat)
    (id : PropertyValue) (basis : Concept) :
    (described shape what scalars n id basis).dual =
      described shape what.dual scalars.dual n id.dual basis.dual := dual_of_ne h

theorem dual_tensorProduct (factors : List Concept) :
    (tensorProduct factors).dual = tensorProduct (factors.map dual) := by
  rw [← dualList_eq_map]
  rfl

theorem dual_directSum (summands : List Concept) :
    (directSum summands).dual = directSum (summands.map dual) := by
  rw [← dualList_eq_map]
  rfl

theorem dual_power (kind : PowerKind) (factor : Concept) (degree : Nat) :
    (power kind factor degree).dual = power kind factor.dual degree := by
  cases kind <;> rfl

theorem Reading.commonField_dual (shape : Structure) (rs : List Reading) :
    commonField shape (rs.map dual) = commonField shape rs := by
  cases rs with
  | nil => rfl
  | cons r rs =>
    have hfind : (rs.map dual).find? (fun s => s.scalars != r.dual.scalars) =
        (rs.find? fun s => s.scalars != r.scalars).map dual := List.find?_map ..
    rw [List.map_cons, commonField, commonField, hfind]
    cases rs.find? fun s => s.scalars != r.scalars <;> rfl

theorem Reading.fold_dual (combine : Nat → Nat → Checked Nat) (unit : Nat) (rs : List Reading) :
    fold combine unit (rs.map dual) = fold combine unit rs := by
  rw [fold, fold, List.map_map]
  rfl

theorem forall₂_resolves_dual (h : List.Forall₂ Resolves spaces rs) :
    List.Forall₂ Resolves (spaces.map dual) (rs.map Reading.dual) := by
  rw [List.forall₂_map_left_iff, List.forall₂_map_right_iff]
  exact h.imp fun _ _ hc => hc.dual

theorem combined_dual (h : List.Forall₂ Resolves spaces rs) {shape : Structure} (hshape : shape ≠ .field)
    {join : List Concept → Concept} (hjoin : ∀ cs, (join cs).dual = join (cs.map dual))
    (combine : Nat → Nat → Checked Nat) (unit : Nat) :
    combined shape join combine unit (spaces.map dual) = (combined shape join combine unit spaces).map dual := by
  have hspaces : (rs.map Reading.dual).map Reading.space = (rs.map Reading.space).map dual := by
    rw [List.map_map, List.map_map]
    rfl
  have hbases : (rs.map Reading.dual).map Reading.basis = (rs.map Reading.basis).map dual := by
    rw [List.map_map, List.map_map]
    rfl
  rw [combined_eq (forall₂_resolves_dual h), combined_eq h, Reading.commonField_dual, Reading.fold_dual,
    hspaces, hbases, ← hjoin, ← hjoin, ← hjoin]
  cases hscalars : Reading.commonField shape rs with
  | error e => rfl
  | ok scalars =>
    cases Reading.fold combine unit rs with
    | error fault => rfl
    | ok n =>
      have hscalars := scalars_dual_of_commonField h hscalars
      show Except.ok (described _ _ _ _ _ _) = Except.ok (described _ _ _ _ _ _).dual
      rw [dual_described hshape, hscalars]
      rfl

theorem basedTensorProduct_dual (h : List.Forall₂ Resolves spaces rs) :
    basedTensorProduct (spaces.map dual) = (basedTensorProduct spaces).map dual := by
  rw [basedTensorProduct_eq_combined, basedTensorProduct_eq_combined]
  exact combined_dual h (by decide) dual_tensorProduct _ _

theorem basedDirectSum_dual (h : List.Forall₂ Resolves spaces rs) :
    basedDirectSum (spaces.map dual) = (basedDirectSum spaces).map dual := by
  rw [basedDirectSum_eq_combined, basedDirectSum_eq_combined]
  exact combined_dual h (by decide) dual_directSum _ _

theorem basedPower_dual (h : c.Resolves r) (kind : PowerKind) (degree : Nat) :
    basedPower kind c.dual degree = (basedPower kind c degree).map dual := by
  have hshape : kind.basedShape ≠ .field := by cases kind <;> decide
  rw [basedPower_eq h.dual, basedPower_eq h]
  show (liftM (kind.dimension r.dimension degree) >>= _) = _
  cases kind.dimension r.dimension degree with
  | error fault => rfl
  | ok n =>
    show Except.ok (described _ _ _ _ _ _) = Except.ok (described _ _ _ _ _ _).dual
    rw [dual_described hshape, dual_power, h.scalars_dual]
    cases kind <;> rfl

end Concept

/-- A constructor that goes with duals does so on the concepts of spaces, if they can be found. -/
theorem Space.bind_conceptList_dual {f : List Concept → Outcome ConceptError Concept}
    (hf : ∀ cs rs, List.Forall₂ Concept.Resolves cs rs → f (cs.map Concept.dual) = (f cs).map Concept.dual)
    (ss : List Space) : ((Space.conceptList ss).map (List.map Concept.dual) >>= f) =
      (Space.conceptList ss >>= f).map Concept.dual := by
  cases hcs : Space.conceptList ss with
  | error e => rfl
  | ok cs =>
    obtain ⟨-, rs, hrs, -⟩ := Space.conceptList_resolves ss cs hcs
    exact hf cs rs hrs

mutual

theorem Space.concept_dual : (s : Space) → s.dual.concept = s.concept.map Concept.dual
  | .based scalars n tag orthonormal basisTag => by cases orthonormal <;> rfl
  | .product factors => by
    show (Space.conceptList (Space.dualList factors) >>= Concept.basedTensorProduct) = _
    rw [Space.conceptList_dual factors]
    exact Space.bind_conceptList_dual (fun _ _ => Concept.basedTensorProduct_dual) factors
  | .sum summands => by
    show (Space.conceptList (Space.dualList summands) >>= Concept.basedDirectSum) = _
    rw [Space.conceptList_dual summands]
    exact Space.bind_conceptList_dual (fun _ _ => Concept.basedDirectSum_dual) summands
  | .power kind degree factor => by
    show (factor.dual.concept >>= fun c => Concept.basedPower kind c degree) =
      (factor.concept >>= fun c => Concept.basedPower kind c degree).map Concept.dual
    rw [Space.concept_dual factor]
    cases hc : factor.concept with
    | error e => rfl
    | ok c =>
      obtain ⟨-, r, hr, -⟩ := factor.concept_resolves c hc
      exact Concept.basedPower_dual hr kind degree

theorem Space.conceptList_dual : (ss : List Space) →
    Space.conceptList (Space.dualList ss) = (Space.conceptList ss).map (List.map Concept.dual)
  | [] => rfl
  | s :: ss => by
    rw [Space.dualList, Space.conceptList, Space.conceptList, Space.concept_dual s,
      Space.conceptList_dual ss]
    cases s.concept with
    | error e => rfl
    | ok c => cases Space.conceptList ss <;> rfl

end

namespace Concept

/-- A constructor that is given the duals gives the dual, or is refused or stopped for the same reason. So the
concept of a dual space is the dual of its concept. -/
theorem dual_distributes :
    (∀ factors, (∀ f ∈ factors, Generated f) →
      basedTensorProduct (factors.map dual) = (basedTensorProduct factors).map dual) ∧
    (∀ summands, (∀ f ∈ summands, Generated f) →
      basedDirectSum (summands.map dual) = (basedDirectSum summands).map dual) ∧
    (∀ kind factor degree, Generated factor →
      basedPower kind factor.dual degree = (basedPower kind factor degree).map dual) ∧
    ∀ s : Space, s.dual.concept = s.concept.map dual := by
  refine ⟨fun factors hfactors => ?_, fun summands hsummands => ?_, fun kind factor degree hfactor => ?_,
    Space.concept_dual⟩
  · obtain ⟨rs, hrs⟩ := exists_readings fun f hf => (hfactors f hf).resolves
    exact basedTensorProduct_dual hrs
  · obtain ⟨rs, hrs⟩ := exists_readings fun f hf => (hsummands f hf).resolves
    exact basedDirectSum_dual hrs
  · obtain ⟨r, hr⟩ := hfactor.resolves
    exact basedPower_dual hr kind degree

/-- The operators on a plane are dual to those on its dual. A real and a complex plane have no product, and
neither have their duals. -/
theorem dual_distributes_operators : ∃ plane complex operators quadratic : Concept,
    Generated plane ∧ Generated complex ∧ basedTensorProduct [plane, plane.dual] = .ok operators ∧
    basedPower .symmetric operators 2 = .ok quadratic ∧
    basedTensorProduct [plane.dual, plane] = .ok operators.dual ∧
    basedPower .symmetric operators.dual 2 = .ok quadratic.dual ∧
    basedTensorProduct [plane.dual, complex.dual] =
      Outcome.refuse (.fieldMismatch (field (.named "Real")) (field (.named "Complex"))) := by
  let plane := realSpace 2
  let complex := basedVectorSpace (vectorSpace (field (.named "Complex")) 2 (.tag (.named "Generic")))
    (basis (.tag (.named "Standard")))
  have hplane := generated_realSpace 2
  have hcomplex : Generated complex := .space _ _ _ _
  let operators : {c // basedTensorProduct [plane, plane.dual] = .ok c} := ⟨_, rfl⟩
  let quadratic : {c // basedPower .symmetric operators.1 2 = .ok c} := ⟨_, rfl⟩
  have hfactors : ∀ f ∈ [plane, plane.dual], Generated f := by simpa using ⟨hplane, hplane.dual⟩
  have hmixed : ∀ f ∈ [plane, complex], Generated f := by simpa using ⟨hplane, hcomplex⟩
  obtain ⟨hproduct, -, hpower, -⟩ := dual_distributes
  have hduals := hproduct _ hfactors
  rw [operators.2, List.map_cons, List.map_cons, dual_dual] at hduals
  have hquadratic := hpower .symmetric operators.1 2 (.product hfactors operators.2)
  rw [quadratic.2] at hquadratic
  exact ⟨plane, complex, operators.1, quadratic.1, hplane, hcomplex, operators.2, quadratic.2, hduals,
    hquadratic, hproduct _ hmixed⟩

end Concept

end TensorCalculus
