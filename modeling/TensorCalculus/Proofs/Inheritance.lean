import Mathlib.Data.Set.Card
import Mathlib.Logic.Relation
import TensorCalculus.Proofs.Family

/-!
# What a concept inherits

A concept inherits from every concept that it reaches over parents (`Concept.Reaches`). The list of
ancestors goes along every path and so names a concept once for each path to it, but it holds just the
concepts reached (`mem_ancestors`). A query then asks for the one element of a set: of the values that
the concepts reached state first (`Concept.oneOf_property`), or of those among them that pass a test
(`Criterion.oneOf_uniqueOf`). `OneOf` says how such a query ends.
-/

namespace TensorCalculus

/-! ### Asking for the one element of a set -/

/-- How a query for the one element of `S` ends. -/
inductive OneOf {ε α : Type} (S : Set α) (missing : ε) (ambiguous : Nat → ε) : Except ε α → Prop where
  | found {x : α} (h : S = {x}) : OneOf S missing ambiguous (.ok x)
  | missing (h : S = ∅) : OneOf S missing ambiguous (.error missing)
  | ambiguous (h : 1 < S.ncard) : OneOf S missing ambiguous (.error (ambiguous S.ncard))

/-- A list without repetition is as long as the set of its elements is large. -/
theorem ncard_of_nodup {α : Type} {xs : List α} (h : xs.Nodup) {S : Set α} (hS : ∀ x, x ∈ xs ↔ x ∈ S) :
    S.ncard = xs.length := by
  classical
  have hcoe : S = xs.toFinset := by
    ext x
    simp [hS]
  rw [hcoe, Set.ncard_coe_finset, List.toFinset_card_of_nodup h]

namespace OneOf
variable {ε α : Type} {S : Set α} {missing : ε} {ambiguous : Nat → ε} {r : Except ε α}

/-- A query that goes by a list of the elements of `S`, each listed once. -/
theorem of_list {xs : List α} (hnodup : xs.Nodup) (hS : ∀ x, x ∈ xs ↔ x ∈ S)
    (hnil : xs = [] → r = .error missing) (hone : ∀ x, xs = [x] → r = .ok x)
    (hmany : ∀ x y ys, xs = x :: y :: ys → r = .error (ambiguous xs.length)) :
    OneOf S missing ambiguous r := by
  have hcard := ncard_of_nodup hnodup hS
  match xs with
  | [] =>
    rw [hnil rfl]
    exact .missing (Set.eq_empty_of_forall_notMem fun x hx => by simp [← hS] at hx)
  | [x] =>
    rw [hone x rfl]
    exact .found (Set.ext fun y => by simp [← hS])
  | x :: y :: ys =>
    rw [hmany x y ys rfl, ← hcard]
    exact .ambiguous (by simp [hcard])

theorem ok_iff (h : OneOf S missing ambiguous r) {x : α} : r = .ok x ↔ S = {x} := by
  rcases h with @⟨y, hS⟩ | hS | hS
  · simp [hS]
  · simp [hS]
  · simp only [reduceCtorEq, false_iff]
    rintro rfl
    simp at hS

theorem missing_iff (h : OneOf S missing ambiguous r) (hne : ∀ n, ambiguous n ≠ missing) :
    r = .error missing ↔ S = ∅ := by
  rcases h with hS | hS | hS
  · simp [hS]
  · simp [hS]
  · simp only [Except.error.injEq, hne, false_iff]
    rintro rfl
    simp at hS

theorem ambiguous_iff (h : OneOf S missing ambiguous r) (hne : ∀ n, ambiguous n ≠ missing)
    (hinj : ambiguous.Injective) {n : Nat} : r = .error (ambiguous n) ↔ 1 < n ∧ S.ncard = n := by
  rcases h with hS | hS | hS
  · simp only [reduceCtorEq, hS, Set.ncard_singleton, false_iff]
    omega
  · simp only [Except.error.injEq, (hne n).symm, hS, Set.ncard_empty, false_iff]
    omega
  · rw [Except.error.injEq, hinj.eq_iff]
    constructor
    · rintro rfl
      exact ⟨hS, rfl⟩
    · exact fun h => h.2

theorem exhaustive (h : OneOf S missing ambiguous r) :
    (∃ x, r = .ok x) ∨ r = .error missing ∨ ∃ n, r = .error (ambiguous n) := by
  rcases h with hS | hS | hS
  · exact .inl ⟨_, rfl⟩
  · exact .inr (.inl rfl)
  · exact .inr (.inr ⟨_, rfl⟩)

end OneOf

/-! ### Concepts that are reached -/

/-- `a` is reached from `c` in some number of steps, each from a concept to one of its parents. -/
def Concept.Reaches : Concept → Concept → Prop := Relation.ReflTransGen fun c a => a ∈ c.parents

mutual

theorem Concept.reaches_of_mem_ancestors : (c : Concept) → ∀ {a}, a ∈ c.ancestors → c.Reaches a
  | .mk shape parents properties, a, h => by
    rw [Concept.ancestors, List.mem_cons] at h
    rcases h with rfl | h
    · exact .refl
    · obtain ⟨p, hp, hreaches⟩ := Concept.reaches_of_mem_ancestorsList parents h
      exact .head hp hreaches

theorem Concept.reaches_of_mem_ancestorsList :
    (cs : List Concept) → ∀ {a}, a ∈ Concept.ancestorsList cs → ∃ c ∈ cs, c.Reaches a
  | [], a, h => by cases h
  | c :: cs, a, h => by
    rw [Concept.ancestorsList, List.mem_append] at h
    rcases h with h | h
    · exact ⟨c, by simp, Concept.reaches_of_mem_ancestors c h⟩
    · obtain ⟨b, hb, hreaches⟩ := Concept.reaches_of_mem_ancestorsList cs h
      exact ⟨b, by simp [hb], hreaches⟩

end

namespace Concept
variable {c a p : Concept} {key : PropertyId} {v w : PropertyValue}

theorem self_mem_ancestors (c : Concept) : c ∈ c.ancestors := by
  cases c
  simp [ancestors]

theorem mem_ancestorsList {cs : List Concept} (hp : p ∈ cs) (ha : a ∈ p.ancestors) :
    a ∈ ancestorsList cs := by
  induction cs with
  | nil => cases hp
  | cons c cs ih =>
    rw [ancestorsList, List.mem_append]
    rcases List.mem_cons.1 hp with rfl | hp
    · exact .inl ha
    · exact .inr (ih hp)

theorem mem_ancestors_of_parent (hp : p ∈ c.parents) (ha : a ∈ p.ancestors) : a ∈ c.ancestors := by
  cases c
  exact List.mem_cons_of_mem _ (mem_ancestorsList hp ha)

theorem mem_ancestors : a ∈ c.ancestors ↔ c.Reaches a := by
  refine ⟨reaches_of_mem_ancestors c, fun h => ?_⟩
  induction h using Relation.ReflTransGen.head_induction_on with
  | refl => exact self_mem_ancestors a
  | head hp _ ih => exact mem_ancestors_of_parent hp ih

/-! ### Properties that are inherited -/

/-- The concept states the property itself. -/
def Defines (c : Concept) (key : PropertyId) : Prop := ∃ q ∈ c.properties, q.key = key

/-- Of the values that the concept itself states for the property, `v` is the first. -/
def FirstValue (c : Concept) (key : PropertyId) (v : PropertyValue) : Prop :=
  ∃ before after, c.properties = before ++ .mk key v :: after ∧ ∀ q ∈ before, q.key ≠ key

theorem ownProperty?_eq_some : c.ownProperty? key = some v ↔ c.FirstValue key v := by
  rw [ownProperty?, Option.map_eq_some_iff]
  constructor
  · rintro ⟨⟨k, w⟩, hfind, rfl⟩
    obtain ⟨hk, before, after, hsplit, hbefore⟩ := List.find?_eq_some_iff_append.1 hfind
    obtain rfl : k = key := by simpa [Property.key] using hk
    exact ⟨before, after, hsplit, fun q hq => by simpa using hbefore q hq⟩
  · rintro ⟨before, after, hsplit, hbefore⟩
    refine ⟨.mk key v, List.find?_eq_some_iff_append.2 ⟨by simp [Property.key], before, after, hsplit, ?_⟩, rfl⟩
    intro q hq
    simpa using hbefore q hq

theorem FirstValue.unique (hv : c.FirstValue key v) (hw : c.FirstValue key w) : v = w := by
  rw [← ownProperty?_eq_some] at hv hw
  exact Option.some.inj (hv.symm.trans hw)

theorem defines_iff : c.Defines key ↔ ∃ v, c.FirstValue key v := by
  constructor
  · rintro ⟨q, hq, hkey⟩
    obtain ⟨before, ⟨k, v⟩, after, hsplit, hk, hbefore⟩ :=
      exists_first (P := fun q : Property => q.key = key) ⟨q, hq, hkey⟩
    obtain rfl : k = key := hk
    exact ⟨v, before, after, hsplit, hbefore⟩
  · rintro ⟨v, before, after, hsplit, -⟩
    exact ⟨.mk key v, by simp [hsplit], rfl⟩

/-- The values that the concepts reached state first. -/
def inherited (c : Concept) (key : PropertyId) : Set PropertyValue :=
  {v | ∃ a, c.Reaches a ∧ a.FirstValue key v}

theorem mem_allValues : v ∈ c.allValues key ↔ v ∈ c.inherited key := by
  simp only [allValues, Occurrence.mem_distinct, List.mem_filterMap, ownProperty?_eq_some, mem_ancestors,
    inherited, Set.mem_ofPred_eq]

theorem oneOf_property (c : Concept) (key : PropertyId) :
    OneOf (c.inherited key) (.missingProperty c key) (.ambiguousProperty c key) (c.property key) := by
  refine .of_list (Occurrence.nodup_distinct _) (fun v => mem_allValues) ?_ ?_ ?_
  · intro h
    simp [property, allValues, h]
  · intro v h
    simp [property, allValues, h]
  · intro v w vs h
    simp [property, allValues, h]

theorem inherited_eq_singleton : c.inherited key = {v} ↔
    (∃ a, c.Reaches a ∧ a.Defines key) ∧ ∀ a, c.Reaches a → a.Defines key → a.FirstValue key v := by
  constructor
  · intro h
    have hv : v ∈ c.inherited key := by simp [h]
    obtain ⟨a, ha, hav⟩ := hv
    refine ⟨⟨a, ha, defines_iff.2 ⟨v, hav⟩⟩, fun b hb hdefines => ?_⟩
    obtain ⟨w, hbw⟩ := defines_iff.1 hdefines
    have hw : w ∈ c.inherited key := ⟨b, hb, hbw⟩
    obtain rfl : w = v := by simpa [h] using hw
    exact hbw
  · rintro ⟨⟨a, ha, hdefines⟩, hall⟩
    ext w
    constructor
    · rintro ⟨b, hb, hbw⟩
      exact hbw.unique (hall b hb (defines_iff.2 ⟨w, hbw⟩))
    · rintro rfl
      exact ⟨a, ha, hall a ha hdefines⟩

theorem inherited_eq_empty : c.inherited key = ∅ ↔ ∀ a, c.Reaches a → ¬a.Defines key := by
  constructor
  · intro h a ha hdefines
    obtain ⟨v, hv⟩ := defines_iff.1 hdefines
    have hmem : v ∈ c.inherited key := ⟨a, ha, hv⟩
    simp [h] at hmem
  · intro h
    refine Set.eq_empty_of_forall_notMem ?_
    rintro v ⟨a, ha, hv⟩
    exact h a ha (defines_iff.2 ⟨v, hv⟩)

end Concept

/-! ### Structures that are inherited -/

/-- The concepts reached that pass the test. -/
def Criterion.reached (s : Criterion) (c : Concept) : Set Concept := {a | c.Reaches a ∧ s.holds a = true}

theorem Criterion.oneOf_uniqueOf (s : Criterion) (c : Concept) :
    OneOf (s.reached c) (.missingStructure c s.name) (.ambiguousStructure c s.name) (s.uniqueOf c) := by
  have hmem : ∀ a, a ∈ s.instances c ↔ a ∈ s.reached c := by
    intro a
    simp only [instances, Concept.distinctAncestors, List.mem_filter, Occurrence.mem_distinct,
      Concept.mem_ancestors, reached, Set.mem_ofPred_eq]
  refine .of_list ((Occurrence.nodup_distinct _).filter _) hmem ?_ ?_ ?_
  · intro h
    simp [uniqueOf, instances, Concept.distinctAncestors, h]
  · intro v h
    simp [uniqueOf, instances, Concept.distinctAncestors, h]
  · intro v w vs h
    simp [uniqueOf, instances, Concept.distinctAncestors, h]

/-- A property or a structure is resolved over just the concepts that are reached over parents. It does not
matter along how many paths, and only different values and different concepts are ambiguous. -/
theorem Concept.inherited_from_reachable :
    (∀ (c : Concept) (key : PropertyId),
      (∀ v, c.property key = .ok v ↔ (∃ a, c.Reaches a ∧ a.Defines key) ∧
        ∀ a, c.Reaches a → a.Defines key → a.FirstValue key v) ∧
      (c.property key = .error (.missingProperty c key) ↔ ∀ a, c.Reaches a → ¬a.Defines key) ∧
      (∀ n, c.property key = .error (.ambiguousProperty c key n) ↔
        1 < n ∧ {v | ∃ a, c.Reaches a ∧ a.FirstValue key v}.ncard = n) ∧
      ((∃ v, c.property key = .ok v) ∨ c.property key = .error (.missingProperty c key) ∨
        ∃ n, c.property key = .error (.ambiguousProperty c key n))) ∧
    ∀ (s : Criterion) (c : Concept),
      (∀ a, s.uniqueOf c = .ok a ↔ c.Reaches a ∧ s.holds a = true ∧
        ∀ b, c.Reaches b → s.holds b = true → b = a) ∧
      (s.uniqueOf c = .error (.missingStructure c s.name) ↔ ∀ a, c.Reaches a → s.holds a = false) ∧
      (∀ n, s.uniqueOf c = .error (.ambiguousStructure c s.name n) ↔
        1 < n ∧ {a | c.Reaches a ∧ s.holds a = true}.ncard = n) ∧
      ((∃ a, s.uniqueOf c = .ok a) ∨ s.uniqueOf c = .error (.missingStructure c s.name) ∨
        ∃ n, s.uniqueOf c = .error (.ambiguousStructure c s.name n)) ∧
      (s.hasUnique c = true ↔ ∃ a, s.uniqueOf c = .ok a) := by
  refine ⟨fun c key => ?_, fun s c => ?_⟩
  · have hone := c.oneOf_property key
    have hne : ∀ n, ConceptError.ambiguousProperty c key n ≠ .missingProperty c key := by
      intro n h
      cases h
    refine ⟨fun v => hone.ok_iff.trans inherited_eq_singleton, (hone.missing_iff hne).trans inherited_eq_empty,
      fun n => hone.ambiguous_iff hne ?_, hone.exhaustive⟩
    intro m n h
    cases h
    rfl
  · have hone := s.oneOf_uniqueOf c
    have hne : ∀ n, ConceptError.ambiguousStructure c s.name n ≠ .missingStructure c s.name := by
      intro n h
      cases h
    refine ⟨fun a => hone.ok_iff.trans ?_, (hone.missing_iff hne).trans ?_, fun n => hone.ambiguous_iff hne ?_,
      hone.exhaustive, Criterion.hasUnique_iff⟩
    · simp [Criterion.reached, Set.eq_singleton_iff_unique_mem, and_assoc]
    · simp [Criterion.reached, Set.eq_empty_iff_forall_notMem]
    · intro m n h
      cases h
      rfl

end TensorCalculus
