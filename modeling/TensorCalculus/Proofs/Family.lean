import TensorCalculus.Concept.Dual
import TensorCalculus.Concept.Family
import TensorCalculus.Proofs.Checked
import TensorCalculus.Proofs.Occurrence

/-!
# The families of based vector spaces

`Concept.Based c` holds of what the families of based vector spaces describe: spaces with a basis,
tensor products, direct sums and powers of such, and duals; `Concept.Generated c` asks in addition that the
spaces are over fields. Whatever a constructor gives describes a based vector space in two ways
(`basedTensorProduct_eq_ok`, `basedDirectSum_eq_ok`, `basedPower_eq_ok`). A concept of one of these families
has one dimension (`Sized`), and the queries for the factors of a product or of a power give the spaces that
it was made of, whose dimensions give its own (`Sized.of_product`, `Sized.of_power`).
-/

namespace TensorCalculus

namespace Criterion
variable {s : Criterion} {c : Concept}

theorem uniqueOf_eq_ok {a : Concept} : s.uniqueOf c = .ok a ↔ s.instances c = [a] := by
  unfold uniqueOf
  split <;> simp_all

theorem hasUnique_iff : s.hasUnique c = true ↔ ∃ a, s.uniqueOf c = .ok a := by
  simp only [uniqueOf_eq_ok, ← List.length_eq_one_iff, hasUnique, beq_iff_eq]

end Criterion

theorem StructureClass.instances_eq (s : StructureClass) (c : Concept) :
    s.instances c = c.distinctAncestors.filter s.holds := rfl

namespace Concept

/-- The concepts that come from based vector spaces by tensor products, direct sums, powers and duals, where
`P` holds of what the spaces are over. -/
inductive BasedOver (P : Concept → Prop) : Concept → Prop where
  | space {scalars : Concept} (hscalars : P scalars) (dimension : Nat) (id : PropertyValue) (basis : Concept) :
      BasedOver P (basedVectorSpace (vectorSpace scalars dimension id) basis)
  | product {factors : List Concept} {c : Concept} (hfactors : ∀ f ∈ factors, BasedOver P f)
      (h : basedTensorProduct factors = .ok c) : BasedOver P c
  | sum {summands : List Concept} {c : Concept} (hsummands : ∀ f ∈ summands, BasedOver P f)
      (h : basedDirectSum summands = .ok c) : BasedOver P c
  | power {kind : PowerKind} {factor : Concept} {degree : Nat} {c : Concept} (hfactor : BasedOver P factor)
      (h : basedPower kind factor degree = .ok c) : BasedOver P c
  | dual {c : Concept} (h : BasedOver P c) : BasedOver P c.dual

/-- The concepts that the families of based vector spaces give, and their duals. -/
abbrev Based : Concept → Prop := BasedOver fun _ => True

/-- The concepts that come from based vector spaces over a field by tensor products, direct sums, powers
and duals. -/
abbrev Generated : Concept → Prop := BasedOver fun scalars => ∃ tag, scalars = field tag

theorem BasedOver.mono {P Q : Concept → Prop} (hPQ : ∀ scalars, P scalars → Q scalars) {c : Concept}
    (h : BasedOver P c) : BasedOver Q c := by
  induction h with
  | space hscalars n id basis => exact .space (hPQ _ hscalars) n id basis
  | product _ h ih => exact .product ih h
  | sum _ h ih => exact .sum ih h
  | power _ h ih => exact .power ih h
  | dual _ ih => exact .dual ih

theorem Generated.space (tag : Tag) (n : Nat) (id : PropertyValue) (basis : Concept) :
    Generated (basedVectorSpace (vectorSpace (field tag) n id) basis) := BasedOver.space ⟨tag, rfl⟩ n id basis

theorem Generated.based {c : Concept} (h : Generated c) : Based c := h.mono fun _ _ => trivial

/-- A space of real tuples, for the instances. -/
def realSpace (n : Nat) : Concept :=
  basedVectorSpace (vectorSpace (field (.named "Real")) n (.tag (.named "Generic")))
    (basis (.tag (.named "Standard")))

theorem generated_realSpace (n : Nat) : Generated (realSpace n) := .space _ _ _ _

theorem based_realSpace (n : Nat) : Based (realSpace n) := (generated_realSpace n).based

/-- A concept that is described in two ways, once as a based vector space. -/
def described (shape : Structure) (what scalars : Concept) (n : Nat) (id : PropertyValue)
    (basis : Concept) : Concept :=
  .mk shape [what, basedVectorSpace (vectorSpace scalars n id) basis] []

/-- A concept of one of the families, of dimension `n`. -/
inductive Sized : Concept → Nat → Prop where
  | space (scalars : Concept) (n : Nat) (id : PropertyValue) (basis : Concept) :
      Sized (basedVectorSpace (vectorSpace scalars n id) basis) n
  | product {factors : List Concept} {dims : List Nat} {n : Nat} (scalars : Concept) (id : PropertyValue)
      (basis : Concept) (hlength : factors.length = dims.length)
      (hfactors : ∀ p ∈ factors.zip dims, Sized p.1 p.2) (hn : Count.product dims = .ok n) :
      Sized (described .basedTensorProduct (tensorProduct factors) scalars n id basis) n
  | sum (summands : List Concept) (n : Nat) (scalars : Concept) (id : PropertyValue) (basis : Concept) :
      Sized (described .basedDirectSum (directSum summands) scalars n id basis) n
  | power {kind : PowerKind} {factor : Concept} {degree d n : Nat} (scalars : Concept)
      (id : PropertyValue) (basis : Concept) (hfactor : Sized factor d)
      (hn : kind.dimension d degree = .ok n) :
      Sized (described kind.basedShape (power kind factor degree) scalars n id basis) n

variable {c : Concept} {n : Nat}

/-! ### Queries -/

theorem uniqueOf_eq_ok {k : StructureClass} {a : Concept} :
    k.uniqueOf c = .ok a ↔ k.instances c = [a] := Criterion.uniqueOf_eq_ok

theorem Sized.dimension_eq (h : Sized c n) : c.dimension = .ok n := by
  cases h with
  | space => rfl
  | product => rfl
  | sum => rfl
  | @power kind => cases kind <;> rfl

theorem Sized.unique {n' : Nat} (h : Sized c n) (h' : c.dimension = .ok n') : n = n' :=
  Except.ok.inj (h.dimension_eq.symm.trans h')

theorem Sized.of_product {product : Concept} {factors : List Concept} (h : Sized c n)
    (hproduct : StructureClass.basedTensorProduct.uniqueOf c = .ok product)
    (hfactors : product.factorList = .ok factors) :
    ∃ dims, factors.length = dims.length ∧ (∀ p ∈ factors.zip dims, Sized p.1 p.2) ∧
      Count.product dims = .ok n := by
  cases h with
  | space => cases hproduct
  | product scalars id basis hlength hsized hn =>
    cases hproduct
    cases hfactors
    exact ⟨_, hlength, hsized, hn⟩
  | sum => cases hproduct
  | @power kind => cases kind <;> cases hproduct

theorem Sized.of_power {power base : Concept} {kind : PowerKind} {degree : Nat} (h : Sized c n)
    (hpower : StructureClass.basedPower.uniqueOf c = .ok power)
    (hkind : PowerKind.of? power.shape = some kind) (hdegree : power.degree = .ok degree)
    (hbase : power.powerFactor = .ok base) :
    ∃ d, Sized base d ∧ kind.dimension d degree = .ok n := by
  cases h with
  | space => cases hpower
  | product => cases hpower
  | sum => cases hpower
  | @power kind' _ _ _ _ scalars id basis hfactor hn =>
    cases kind' with
    | symmetric =>
      cases hpower
      cases hkind
      cases hdegree
      cases hbase
      exact ⟨_, hfactor, hn⟩
    | exterior =>
      cases hpower
      cases hkind
      cases hdegree
      cases hbase
      exact ⟨_, hfactor, hn⟩

/-! ### Duals -/

theorem dualList_eq_map (cs : List Concept) : dualList cs = cs.map Concept.dual := by
  induction cs with
  | nil => rfl
  | cons c cs ih => rw [dualList, ih, List.map_cons]

theorem Sized.dual (h : Sized c n) : Sized c.dual n := by
  induction h with
  | space scalars n id basis => exact .space scalars.dual n id.dual basis.dual
  | @product factors dims n scalars id basis hlength _ hn ih =>
    show Sized (described .basedTensorProduct (tensorProduct (dualList factors)) _ n _ _) n
    refine .product scalars.dual id.dual basis.dual ?_ ?_ hn
    · rw [dualList_eq_map, List.length_map, hlength]
    · intro p hp
      rw [dualList_eq_map, List.zip_map_left] at hp
      obtain ⟨q, hq, rfl⟩ := List.mem_map.1 hp
      exact ih q hq
  | sum summands n scalars id basis => exact .sum (dualList summands) n scalars.dual id.dual basis.dual
  | @power kind factor degree d n scalars id basis _ hn ih =>
    cases kind with
    | symmetric => exact .power scalars.dual id.dual basis.dual ih hn
    | exterior => exact .power scalars.dual id.dual basis.dual ih hn

theorem Sized.of_isDualOf {c' : Concept} (h : Sized c n) (hdual : c.isDualOf c' = true) : Sized c' n := by
  rw [isDualOf, beq_iff_eq] at hdual
  exact hdual ▸ h.dual

/-! ### What the constructors give -/

/-- Tensor products and direct sums are made in one way: `join` puts the spaces together, and their
dimensions are combined from `unit` on. -/
def combined (shape : Structure) (join : List Concept → Concept) (combine : Nat → Nat → Checked Nat)
    (unit : Nat) (spaces : List Concept) : Outcome ConceptError Concept := do
  let scalars ← commonField shape spaces
  let dimension ← foldDimensions combine unit spaces
  let (vectorSpaces, bases) ← splitBased spaces
  return .mk shape [join spaces, identified scalars dimension (join vectorSpaces) (join bases)] []

theorem basedTensorProduct_eq_combined (factors : List Concept) :
    basedTensorProduct factors = combined .basedTensorProduct tensorProduct Count.mul 1 factors := rfl

theorem basedDirectSum_eq_combined (summands : List Concept) :
    basedDirectSum summands = combined .basedDirectSum directSum Count.add 0 summands := rfl

theorem combined_eq_ok {shape : Structure} {join : List Concept → Concept}
    {combine : Nat → Nat → Checked Nat} {unit : Nat} {spaces : List Concept}
    (h : combined shape join combine unit spaces = .ok c) : ∃ scalars n id basis,
      commonField shape spaces = .ok scalars ∧ foldDimensions combine unit spaces = .ok n ∧
      c = described shape (join spaces) scalars n id basis := by
  unfold combined at h
  obtain ⟨scalars, hscalars, h⟩ := bind_eq_ok.1 h
  obtain ⟨n, hn, h⟩ := bind_eq_ok.1 h
  obtain ⟨⟨spaces, bases⟩, -, h⟩ := bind_eq_ok.1 h
  cases h
  exact ⟨scalars, n, _, _, liftError_eq_ok.1 hscalars, hn, rfl⟩

theorem basedTensorProduct_eq_ok {factors : List Concept} (h : basedTensorProduct factors = .ok c) :
    ∃ scalars n id basis, commonField .basedTensorProduct factors = .ok scalars ∧
      foldDimensions Count.mul 1 factors = .ok n ∧
      c = described .basedTensorProduct (tensorProduct factors) scalars n id basis := combined_eq_ok h

theorem basedDirectSum_eq_ok {summands : List Concept} (h : basedDirectSum summands = .ok c) :
    ∃ scalars n id basis, commonField .basedDirectSum summands = .ok scalars ∧
      foldDimensions Count.add 0 summands = .ok n ∧
      c = described .basedDirectSum (directSum summands) scalars n id basis := combined_eq_ok h

theorem basedPower_eq_ok {kind : PowerKind} {factor : Concept} {degree : Nat}
    (h : basedPower kind factor degree = .ok c) : ∃ scalars d n id basis,
      factor.scalarField = .ok scalars ∧ factor.dimension = .ok d ∧ kind.dimension d degree = .ok n ∧
      c = described kind.basedShape (power kind factor degree) scalars n id basis := by
  unfold basedPower at h
  obtain ⟨scalars, hscalars, h⟩ := bind_eq_ok.1 h
  obtain ⟨d, hd, h⟩ := bind_eq_ok.1 h
  obtain ⟨n, hn, h⟩ := bind_eq_ok.1 h
  obtain ⟨space, -, h⟩ := bind_eq_ok.1 h
  obtain ⟨basis, -, h⟩ := bind_eq_ok.1 h
  cases h
  exact ⟨scalars, d, n, _, _, liftError_eq_ok.1 hscalars, liftError_eq_ok.1 hd, liftFault_eq_ok.1 hn, rfl⟩

/-- The queries of a tensor product give back what it was made of. -/
theorem queries_basedTensorProduct {factors : List Concept} (h : basedTensorProduct factors = .ok c) :
    factors ≠ [] ∧ StructureClass.basedTensorProduct.hasUnique c = true ∧
      StructureClass.basedTensorProduct.uniqueOf c = .ok c ∧ c.factorList = .ok factors := by
  obtain ⟨scalars, n, id, basis, hscalars, -, rfl⟩ := basedTensorProduct_eq_ok h
  refine ⟨?_, rfl, rfl, rfl⟩
  rintro rfl
  cases hscalars

/-- The queries of a power give back what it was made of. -/
theorem queries_basedPower {kind : PowerKind} {base : Concept} {degree : Nat}
    (h : basedPower kind base degree = .ok c) :
    StructureClass.basedPower.uniqueOf c = .ok c ∧ PowerKind.of? c.shape = some kind ∧
      c.degree = .ok degree ∧ c.powerFactor = .ok base ∧
      ∃ n d, base.dimension = .ok n ∧ kind.dimension n degree = .ok d ∧ c.dimension = .ok d := by
  obtain ⟨scalars, n, d, id, basis, -, hn, hd, rfl⟩ := basedPower_eq_ok h
  refine ⟨?_, ?_, ?_, ?_, n, d, hn, hd, ?_⟩
  all_goals cases kind <;> rfl

/-! ### Dimensions -/

theorem foldDimensions_eq_ok {combine : Nat → Nat → Checked Nat} {acc d : Nat} {spaces : List Concept}
    {dims : List Nat} (hdims : List.Forall₂ (fun c n => c.dimension = .ok n) spaces dims)
    (h : foldDimensions combine acc spaces = .ok d) : dims.foldlM combine acc = .ok d := by
  induction hdims generalizing acc with
  | nil =>
    cases h
    rfl
  | @cons c n spaces dims hc _ ih =>
    rw [foldDimensions, List.foldlM_cons] at h
    obtain ⟨acc', hacc, h⟩ := bind_eq_ok.1 h
    obtain ⟨m, hm, hacc⟩ := bind_eq_ok.1 hacc
    obtain rfl : n = m := Except.ok.inj (hc.symm.trans (liftError_eq_ok.1 hm))
    rw [List.foldlM_cons, liftFault_eq_ok.1 hacc, ok_bind]
    exact ih h

/-- The dimension of a tensor product is the product of the dimensions. -/
theorem dimension_basedTensorProduct {factors : List Concept} {dims : List Nat}
    (hdims : List.Forall₂ (fun c n => c.dimension = .ok n) factors dims)
    (h : basedTensorProduct factors = .ok c) : ∃ n, Count.product dims = .ok n ∧ c.dimension = .ok n := by
  obtain ⟨scalars, n, id, basis, -, hn, rfl⟩ := basedTensorProduct_eq_ok h
  exact ⟨n, foldDimensions_eq_ok hdims hn, rfl⟩

theorem sized_basedTensorProduct {factors : List Concept} {dims : List Nat}
    (hlength : factors.length = dims.length) (hsized : ∀ p ∈ factors.zip dims, Sized p.1 p.2)
    (h : basedTensorProduct factors = .ok c) : ∃ n, Count.product dims = .ok n ∧ Sized c n := by
  have hdims : List.Forall₂ (fun c n => c.dimension = .ok n) factors dims :=
    List.forall₂_iff_zip.2 ⟨hlength, fun hp => (hsized _ hp).dimension_eq⟩
  obtain ⟨scalars, n, id, basis, -, hn, rfl⟩ := basedTensorProduct_eq_ok h
  have hn : Count.product dims = .ok n := foldDimensions_eq_ok hdims hn
  exact ⟨n, hn, .product scalars id basis hlength hsized hn⟩

theorem sized_basedDirectSum {summands : List Concept} (h : basedDirectSum summands = .ok c) :
    ∃ n, Sized c n := by
  obtain ⟨scalars, n, id, basis, -, -, rfl⟩ := basedDirectSum_eq_ok h
  exact ⟨n, .sum summands n scalars id basis⟩

theorem sized_basedPower {kind : PowerKind} {factor : Concept} {degree d : Nat} (hfactor : Sized factor d)
    (h : basedPower kind factor degree = .ok c) : ∃ n, kind.dimension d degree = .ok n ∧ Sized c n := by
  obtain ⟨scalars, d', n, id, basis, -, hd', hn, rfl⟩ := basedPower_eq_ok h
  obtain rfl := hfactor.unique hd'
  exact ⟨n, hn, .power scalars id basis hfactor hn⟩

theorem exists_sized_zip {cs : List Concept} (h : ∀ c ∈ cs, ∃ n, Sized c n) :
    ∃ dims : List Nat, cs.length = dims.length ∧ ∀ p ∈ cs.zip dims, Sized p.1 p.2 := by
  induction cs with
  | nil => exact ⟨[], rfl, by simp⟩
  | cons c cs ih =>
    obtain ⟨n, hn⟩ := h c (by simp)
    obtain ⟨dims, hlength, hdims⟩ := ih fun c hc => h c (by simp [hc])
    refine ⟨n :: dims, by simp [hlength], fun p hp => ?_⟩
    rw [List.zip_cons_cons] at hp
    rcases List.mem_cons.1 hp with rfl | hp
    · exact hn
    · exact hdims p hp

theorem Based.sized (h : Based c) : ∃ n, Sized c n := by
  induction h with
  | space _ n id basis => exact ⟨n, .space _ n id basis⟩
  | product _ h ih =>
    obtain ⟨dims, hlength, hdims⟩ := exists_sized_zip ih
    obtain ⟨n, -, hn⟩ := sized_basedTensorProduct hlength hdims h
    exact ⟨n, hn⟩
  | sum _ h _ => exact sized_basedDirectSum h
  | power _ h ih =>
    obtain ⟨d, hd⟩ := ih
    obtain ⟨n, -, hn⟩ := sized_basedPower hd h
    exact ⟨n, hn⟩
  | dual _ ih =>
    obtain ⟨n, hn⟩ := ih
    exact ⟨n, hn.dual⟩

end Concept

end TensorCalculus
