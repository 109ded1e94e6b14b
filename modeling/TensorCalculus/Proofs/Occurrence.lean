import Mathlib.Data.List.Nodup
import TensorCalculus.Occurrence

/-!
# What the occurrence lists hold
-/

namespace TensorCalculus.Occurrence
variable {α : Type} [BEq α] {xs ys : List α} {x : α}

@[simp] theorem distinct_nil : distinct ([] : List α) = [] := rfl

theorem distinct_cons : distinct (x :: xs) = x :: distinct (xs.filter fun y => !y == x) :=
  List.eraseDups_cons

theorem distinct_sublist (xs : List α) : (distinct xs).Sublist xs := by
  match xs with
  | [] => exact .slnil
  | x :: xs =>
    rw [distinct_cons]
    exact ((distinct_sublist _).trans List.filter_sublist).cons_cons x
termination_by xs.length
decreasing_by exact Nat.lt_succ_of_le (List.length_filter_le _ _)

variable [LawfulBEq α]

@[simp] theorem mem_distinct : x ∈ distinct xs ↔ x ∈ xs := List.mem_eraseDups

theorem nodup_distinct (xs : List α) : (distinct xs).Nodup := by
  match xs with
  | [] => exact .nil
  | x :: xs =>
    rw [distinct_cons, List.nodup_cons, mem_distinct]
    exact ⟨by simp, nodup_distinct _⟩
termination_by xs.length
decreasing_by exact Nat.lt_succ_of_le (List.length_filter_le _ _)

theorem distinct_eq_singleton : distinct xs = [x] ↔ xs ≠ [] ∧ ∀ y ∈ xs, y = x := by
  constructor
  · intro h
    refine ⟨?_, fun y hy => ?_⟩
    · rintro rfl
      cases h
    · rwa [← mem_distinct, h, List.mem_singleton] at hy
  · rintro ⟨hne, hall⟩
    obtain ⟨y, ys, rfl⟩ := List.exists_cons_of_ne_nil hne
    obtain ⟨rfl, hys⟩ := List.forall_mem_cons.1 hall
    have hrest : (ys.filter fun z => !z == y) = [] :=
      List.filter_eq_nil_iff.2 fun z hz => by simp [hys z hz]
    rw [distinct_cons, hrest, distinct_nil]

theorem mem_occurring {n : Nat} : x ∈ occurring n xs ↔ x ∈ xs ∧ xs.count x = n := by
  simp [occurring]

theorem nodup_occurring (n : Nat) (xs : List α) : (occurring n xs).Nodup := (nodup_distinct xs).filter _

theorem count_le_two_of_overused (h : overused xs = []) (x : α) : xs.count x ≤ 2 := by
  rw [overused, List.map_eq_nil_iff, List.filter_eq_nil_iff] at h
  by_cases hx : x ∈ xs
  · have := h x (mem_distinct.2 hx)
    simpa using this
  · rw [List.count_eq_zero_of_not_mem hx]
    omega

theorem mem_common : x ∈ common xs ys ↔ x ∈ xs ∧ x ∈ ys := by simp [common]

theorem firstRepeatedFrom_eq_none {seen : List α} :
    firstRepeatedFrom seen xs = none ↔ xs.Nodup ∧ ∀ x ∈ xs, x ∉ seen := by
  induction xs generalizing seen with
  | nil => simp [firstRepeatedFrom]
  | cons x xs ih =>
    rw [firstRepeatedFrom, List.nodup_cons, List.forall_mem_cons]
    by_cases hx : x ∈ seen
    · simp [hx]
    · rw [if_neg (by simpa using hx), ih]
      constructor
      · rintro ⟨hnodup, hseen⟩
        exact ⟨⟨fun h => hseen x h (by simp), hnodup⟩, hx, fun y hy h => hseen y hy (by simp [h])⟩
      · rintro ⟨⟨hxs, hnodup⟩, -, hseen⟩
        refine ⟨hnodup, fun y hy h => ?_⟩
        rcases List.mem_cons.1 h with rfl | h
        · exact hxs hy
        · exact hseen y hy h

theorem firstRepeated?_eq_none : firstRepeated? xs = none ↔ xs.Nodup := by
  rw [firstRepeated?, firstRepeatedFrom_eq_none]
  simp

/-! ### Under an injective map -/

section Map
variable {β : Type} [BEq β] [LawfulBEq β] {f : α → β}

theorem contains_map (hf : f.Injective) (xs : List α) (x : α) :
    (xs.map f).contains (f x) = xs.contains x := by
  rw [Bool.eq_iff_iff, List.contains_iff_mem, List.contains_iff_mem, List.mem_map_of_injective hf]

theorem common_map (hf : f.Injective) (xs ys : List α) :
    common (xs.map f) (ys.map f) = (common xs ys).map f := by
  rw [common, common, List.filter_map]
  congr 1
  exact List.filter_congr fun x _ => contains_map hf ys x

theorem sameElements_map (hf : f.Injective) (xs ys : List α) :
    sameElements (xs.map f) (ys.map f) = sameElements xs ys := by
  simp only [sameElements, List.all_map, Function.comp_def, contains_map hf]

theorem distinct_map (hf : f.Injective) (xs : List α) : distinct (xs.map f) = (distinct xs).map f := by
  match xs with
  | [] => rfl
  | x :: xs =>
    have hother : ∀ y, (!f y == f x) = !y == x := by
      intro y
      by_cases hyx : y = x
      · simp [hyx]
      · simp [hyx, hf.ne hyx]
    rw [List.map_cons, distinct_cons, distinct_cons, List.map_cons, List.filter_map]
    simp only [Function.comp_def, hother]
    rw [distinct_map hf]
termination_by xs.length
decreasing_by exact Nat.lt_succ_of_le (List.length_filter_le _ _)

end Map

end TensorCalculus.Occurrence
