import TensorCalculus.Proofs.Family

/-!
# The dual taken twice

Concepts, their properties and the values of these hold each other, so `Concept.dual_dual` is proved
for all of them at once. A field is its own dual and the parts of it are left alone. Apart from that
the dual of a concept says of itself the dual of what the concept says: as long as none of its
ancestors is a field, a query has in the dual the dual answer (`property_dual`, `uniqueOf_dual`). Counts
have no dual, so a dimension or a degree is the same in the dual in any case (`dual_keeps_counts`): values
that are not counts may come to be equal or different, but then there is no count on either side.
-/

namespace TensorCalculus

@[simp] theorem Tag.opposite_opposite (t : Tag) : t.opposite.opposite = t := by
  cases t <;> rfl

namespace Concept
variable {c : Concept}

theorem dual_of_field (h : c.shape = .field) : c.dual = c := by
  obtain ⟨shape, parents, properties⟩ := c
  exact if_pos h

theorem dual_of_ne (h : c.shape ≠ .field) :
    c.dual = .mk c.shape (dualList c.parents) (Property.dualList c.properties) := by
  obtain ⟨shape, parents, properties⟩ := c
  exact if_neg h

@[simp] theorem shape_dual (c : Concept) : c.dual.shape = c.shape := by
  by_cases h : c.shape = .field
  · rw [dual_of_field h]
  · rw [dual_of_ne h]
    rfl

end Concept

mutual

theorem Concept.dual_dual : (c : Concept) → c.dual.dual = c
  | .mk shape parents properties => by
    by_cases h : shape = .field
    · rw [Concept.dual, if_pos h, Concept.dual, if_pos h]
    · rw [Concept.dual, if_neg h, Concept.dual, if_neg h, Concept.dualList_dualList parents,
        Property.dualList_dualList properties]

theorem Concept.dualList_dualList : (cs : List Concept) → Concept.dualList (Concept.dualList cs) = cs
  | [] => rfl
  | c :: cs => by
    rw [Concept.dualList, Concept.dualList, Concept.dual_dual c, Concept.dualList_dualList cs]

theorem Property.dual_dual : (p : Property) → p.dual.dual = p
  | .mk key value => by rw [Property.dual, Property.dual, PropertyValue.dual_dual value]

theorem Property.dualList_dualList : (ps : List Property) → Property.dualList (Property.dualList ps) = ps
  | [] => rfl
  | p :: ps => by
    rw [Property.dualList, Property.dualList, Property.dual_dual p, Property.dualList_dualList ps]

theorem PropertyValue.dual_dual : (v : PropertyValue) → v.dual.dual = v
  | .count _ => rfl
  | .tag t => by rw [PropertyValue.dual, PropertyValue.dual, Tag.opposite_opposite]
  | .concept c => by rw [PropertyValue.dual, PropertyValue.dual, Concept.dual_dual c]
  | .typle cs => by rw [PropertyValue.dual, PropertyValue.dual, Concept.dualList_dualList cs]

end

theorem PropertyValue.dual_injective : Function.Injective PropertyValue.dual :=
  Function.LeftInverse.injective PropertyValue.dual_dual

namespace Concept

theorem dual_injective : Function.Injective dual := Function.LeftInverse.injective dual_dual

theorem isDualOf_iff {a b : Concept} : a.isDualOf b = true ↔ a.dual = b := beq_iff_eq

/-- The dual taken twice gives the concept back. So concepts with the same dual are the same, and two
concepts are dual to each other or not at all. -/
theorem dual_is_involution : (∀ t : Tag, t.opposite.opposite = t) ∧ (∀ c : Concept, c.dual.dual = c) ∧
    Function.Injective dual ∧ ∀ a b : Concept, a.isDualOf b = true ↔ b.isDualOf a = true := by
  refine ⟨Tag.opposite_opposite, dual_dual, dual_injective, fun a b => ?_⟩
  rw [isDualOf_iff, isDualOf_iff]
  constructor
  · rintro rfl
    exact dual_dual a
  · rintro rfl
    exact dual_dual b

end Concept

/-! ### Queries of the dual -/

/-- None of the ancestors is a field. -/
def Concept.Fieldless (c : Concept) : Prop := ∀ a ∈ c.ancestors, a.shape ≠ .field

mutual

theorem Concept.ancestors_dual : (c : Concept) → (∀ a ∈ c.ancestors, a.shape ≠ .field) →
    c.dual.ancestors = c.ancestors.map Concept.dual
  | .mk shape parents properties, h => by
    rw [Concept.ancestors, List.forall_mem_cons] at h
    rw [Concept.ancestors, List.map_cons, ← Concept.ancestorsList_dual parents h.2,
      Concept.dual_of_ne h.1]
    rfl

theorem Concept.ancestorsList_dual : (cs : List Concept) →
    (∀ a ∈ Concept.ancestorsList cs, a.shape ≠ .field) →
    Concept.ancestorsList (Concept.dualList cs) = (Concept.ancestorsList cs).map Concept.dual
  | [], _ => rfl
  | c :: cs, h => by
    rw [Concept.ancestorsList, List.forall_mem_append] at h
    rw [Concept.ancestorsList, List.map_append, Concept.dualList, Concept.ancestorsList,
      Concept.ancestors_dual c h.1, Concept.ancestorsList_dual cs h.2]

end

theorem Property.value_dual (p : Property) : p.dual.value = p.value.dual := by
  cases p
  rfl

theorem Property.find?_dualList (key : PropertyId) (ps : List Property) :
    (Property.dualList ps).find? (fun p => p.key == key) =
      (ps.find? fun p => p.key == key).map Property.dual := by
  induction ps with
  | nil => rfl
  | cons p ps ih =>
    obtain ⟨k, v⟩ := p
    rw [dualList, List.find?_cons, List.find?_cons, ih]
    cases hk : k == key <;> simp [Property.dual, Property.key, hk]

theorem Concept.ownProperty?_dual {c : Concept} {key : PropertyId} (h : c.shape ≠ .field) :
    c.dual.ownProperty? key = (c.ownProperty? key).map PropertyValue.dual := by
  rw [dual_of_ne h, ownProperty?, ownProperty?, Option.map_map]
  show ((Property.dualList c.properties).find? _).map _ = _
  rw [Property.find?_dualList, Option.map_map]
  congr 1
  exact funext Property.value_dual

mutual

/-- What the ancestors state is dualized, but not below a field. -/
theorem Concept.stated_dual (key : PropertyId) : (c : Concept) →
    List.Forall₂ (fun v w => w = v ∨ w = v.dual) (c.ancestors.filterMap (ownProperty? · key))
      (c.dual.ancestors.filterMap (ownProperty? · key))
  | .mk shape parents properties => by
    by_cases h : shape = .field
    · rw [Concept.dual, if_pos h]
      exact List.forall₂_same.2 fun v _ => .inl rfl
    · have hparents := Concept.statedList_dual key parents
      have hown := @Concept.ownProperty?_dual (.mk shape parents properties) key h
      rw [Concept.dual, if_neg h] at hown ⊢
      rw [Concept.ancestors, Concept.ancestors, List.filterMap_cons, List.filterMap_cons, hown]
      cases Concept.ownProperty? (.mk shape parents properties) key with
      | none => exact hparents
      | some v => exact .cons (.inr rfl) hparents

theorem Concept.statedList_dual (key : PropertyId) : (cs : List Concept) →
    List.Forall₂ (fun v w => w = v ∨ w = v.dual) ((Concept.ancestorsList cs).filterMap (ownProperty? · key))
      ((Concept.ancestorsList (Concept.dualList cs)).filterMap (ownProperty? · key))
  | [] => .nil
  | c :: cs => by
    rw [Concept.ancestorsList, Concept.dualList, Concept.ancestorsList, List.filterMap_append,
      List.filterMap_append]
    exact List.rel_append (Concept.stated_dual key c) (Concept.statedList_dual key cs)

end

namespace Concept
variable {c : Concept} {key : PropertyId}

theorem allValues_dual (h : c.Fieldless) :
    c.dual.allValues key = (c.allValues key).map PropertyValue.dual := by
  have hown : ∀ a ∈ c.ancestors,
      a.dual.ownProperty? key = (a.ownProperty? key).map PropertyValue.dual :=
    fun a ha => ownProperty?_dual (h a ha)
  rw [allValues, allValues, ancestors_dual c h, List.filterMap_map,
    ← Occurrence.distinct_map PropertyValue.dual_injective, List.map_filterMap]
  congr 1
  exact List.filterMap_congr hown

theorem property_eq_ok {v : PropertyValue} : c.property key = .ok v ↔ c.allValues key = [v] := by
  unfold property
  split <;> simp_all

theorem property_dual (h : c.Fieldless) {v : PropertyValue} (hv : c.property key = .ok v) :
    c.dual.property key = .ok v.dual := by
  rw [property_eq_ok] at hv ⊢
  rw [allValues_dual h, hv]
  rfl

theorem propertyAs_eq_ok {α : Type} {expected : String} {read : PropertyValue → Option α} {a : α} :
    c.propertyAs key expected read = .ok a ↔ ∃ v, c.property key = .ok v ∧ read v = some a := by
  unfold propertyAs
  rw [bind_eq_ok]
  refine exists_congr fun v => and_congr_right fun _ => ?_
  split <;> simp_all

theorem conceptProperty_dual (h : c.Fieldless) {a : Concept} (ha : c.conceptProperty key = .ok a) :
    c.dual.conceptProperty key = .ok a.dual := by
  obtain ⟨v, hv, hread⟩ := propertyAs_eq_ok.1 ha
  refine propertyAs_eq_ok.2 ⟨v.dual, property_dual h hv, ?_⟩
  cases v <;> simp_all [PropertyValue.concept?, PropertyValue.dual]

/-- A property is a count if that is all that the ancestors state. -/
theorem countProperty_eq_ok {n : Nat} : c.countProperty key = .ok n ↔
    c.ancestors.filterMap (ownProperty? · key) ≠ [] ∧
      ∀ v ∈ c.ancestors.filterMap (ownProperty? · key), v = .count n := by
  have hcount : c.countProperty key = .ok n ↔ c.allValues key = [.count n] := by
    rw [← property_eq_ok]
    refine propertyAs_eq_ok.trans ⟨?_, fun h => ⟨_, h, rfl⟩⟩
    rintro ⟨v, hv, hread⟩
    cases v <;> simp_all [PropertyValue.count?]
  rw [hcount, allValues, Occurrence.distinct_eq_singleton]

theorem countProperty_dual {n : Nat} (h : c.countProperty key = .ok n) : c.dual.countProperty key = .ok n := by
  rw [countProperty_eq_ok] at h ⊢
  obtain ⟨hne, hall⟩ := h
  have hstated := stated_dual key c
  refine ⟨fun hnil => hne ?_, fun w hw => ?_⟩
  · rw [hnil] at hstated
    exact List.forall₂_nil_right_iff.1 hstated
  · obtain ⟨v, hv, hvw⟩ := forall₂_exists_right hstated.flip hw
    rcases hvw with rfl | rfl
    · exact hall _ hv
    · rw [hall v hv]
      rfl

theorem countProperty_dual_iff {n : Nat} : c.dual.countProperty key = .ok n ↔ c.countProperty key = .ok n := by
  refine ⟨fun h => ?_, countProperty_dual⟩
  rw [← dual_dual c]
  exact countProperty_dual h

/-- Spaces that can be contracted with each other have the same dimension. -/
theorem dimension_of_isDualOf {a b : Concept} (h : a.isDualOf b = true) {n : Nat} :
    a.dimension = .ok n ↔ b.dimension = .ok n := by
  obtain rfl := isDualOf_iff.1 h
  exact countProperty_dual_iff.symm

/-- The dual has the dimension and the degree of the concept, or like it none. -/
theorem dual_keeps_counts : (∀ (c : Concept) (n : Nat), c.dual.dimension = .ok n ↔ c.dimension = .ok n) ∧
    (∀ (c : Concept) (n : Nat), c.dual.degree = .ok n ↔ c.degree = .ok n) ∧
    ∀ a b : Concept, a.isDualOf b = true → (∃ n, a.dimension = .ok n ∧ b.dimension = .ok n) ∨
      (∃ e, a.dimension = .error e) ∧ ∃ e, b.dimension = .error e := by
  refine ⟨fun c n => countProperty_dual_iff, fun c n => countProperty_dual_iff, fun a b h => ?_⟩
  cases ha : a.dimension with
  | ok n => exact .inl ⟨n, rfl, (dimension_of_isDualOf h).1 ha⟩
  | error e =>
    cases hb : b.dimension with
    | ok n =>
      rw [(dimension_of_isDualOf h).2 hb] at ha
      cases ha
    | error e' => exact .inr ⟨⟨e, rfl⟩, e', rfl⟩

/-- Two tags in place of a dimension become one in the dual, as the field keeps its own. So the dual fails in
another way, but it fails. -/
theorem dual_keeps_counts_merged : ∃ a b : Concept, a.isDualOf b = true ∧
    a.dimension = .error (.ambiguousProperty a .dimension 2) ∧
    b.dimension = .error (.propertyKind b .dimension "count") ∧
    (∀ n, b.dimension = .ok n ↔ a.dimension = .ok n) ∧
    ((∃ n, a.dimension = .ok n ∧ b.dimension = .ok n) ∨
      (∃ e, a.dimension = .error e) ∧ ∃ e, b.dimension = .error e) := by
  let x : Tag := .named "x"
  let field : Concept := .mk .field [] [.mk .dimension (.tag x)]
  let a : Concept := .mk .vectorSpace [field] [.mk .dimension (.tag x.opposite)]
  have hdual : a.isDualOf a.dual = true := isDualOf_iff.2 rfl
  exact ⟨a, a.dual, hdual, rfl, rfl, dual_keeps_counts.1 a, dual_keeps_counts.2.2 a a.dual hdual⟩

theorem Fieldless.dual (h : c.Fieldless) : c.dual.Fieldless := by
  intro a ha
  rw [ancestors_dual c h] at ha
  obtain ⟨b, hb, rfl⟩ := List.mem_map.1 ha
  rw [shape_dual]
  exact h b hb

theorem uniqueOf_dual (h : c.Fieldless) {s : StructureClass} {a : Concept} (ha : s.uniqueOf c = .ok a) :
    s.uniqueOf c.dual = .ok a.dual := by
  rw [uniqueOf_eq_ok] at ha ⊢
  have hholds : ∀ b : Concept, s.holds b.dual = s.holds b := by
    intro b
    rw [StructureClass.holds, StructureClass.holds, shape_dual]
  have hinstances : s.instances c.dual = (s.instances c).map Concept.dual := by
    rw [StructureClass.instances_eq, StructureClass.instances_eq, distinctAncestors, distinctAncestors,
      ancestors_dual c h, Occurrence.distinct_map dual_injective, List.filter_map]
    simp only [Function.comp_def, hholds]
  rw [hinstances, ha]
  rfl

end Concept

end TensorCalculus
