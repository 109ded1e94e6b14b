import Mathlib.Data.List.Lex
import TensorCalculus.Proofs.Rearrangement

/-!
# Stepping through an orbit

The rearrangements of a sorted tuple are listed in lexicographic order
(`pairwise_lt_rearrangements`). A step goes from one to the next, and from the last one back to the sorted
tuple (`nextPermutation_cases`). So the steps visit the list from its beginning to its end
(`map_stepped`), and there is no rearrangement between two that follow each other
(`nextPermutation_successor`). The count of the orbit takes up one entry after the other: it has then the
size of the orbit of the entries so far (`orbitSizeFrom_take`), and each division is exact
(`length_rearrangements_take`).
-/

namespace TensorCalculus.Power

theorem pairwise_lt_rearrangementsOf {n : Nat} {t : List Nat} (ht : t.Pairwise (· ≤ ·)) :
    (rearrangementsOf n t).Pairwise (· < ·) := by
  induction n generalizing t with
  | zero => exact List.pairwise_singleton ..
  | succ n ih =>
    rw [rearrangementsOf, List.pairwise_flatMap]
    constructor
    · intro x hx
      rw [List.pairwise_map]
      refine (ih (ht.sublist List.erase_sublist)).imp ?_
      intro u v huv
      exact List.cons_lt_cons_iff.2 (.inr ⟨rfl, huv⟩)
    · refine (pairwise_lt_distinct ht).imp ?_
      intro x y hxy u hu v hv
      obtain ⟨u, -, rfl⟩ := List.mem_map.1 hu
      obtain ⟨v, -, rfl⟩ := List.mem_map.1 hv
      exact List.cons_lt_cons_iff.2 (.inl hxy)

/-- The tuple after `k` steps. -/
def stepped (t : List Nat) (k : Nat) : List Nat := (fun u => (nextPermutation u).2)^[k] t

theorem stepped_succ (t : List Nat) (k : Nat) : stepped t (k + 1) = (nextPermutation (stepped t k)).2 :=
  Function.iterate_succ_apply' ..

section Sorted
variable {t u : List Nat} (ht : t.Pairwise (· ≤ ·))
include ht

theorem pairwise_lt_rearrangements : (rearrangements t).Pairwise (· < ·) := pairwise_lt_rearrangementsOf ht

theorem getElem_zero_rearrangements (h : 0 < (rearrangements t).length) : (rearrangements t)[0] = t := by
  have hhead := head?_rearrangementsOf ht rfl
  rwa [← rearrangements, List.head?_eq_getElem?, List.getElem?_eq_getElem h, Option.some.injEq] at hhead

theorem nextPermutation_getElem {k : Nat} (h : k + 1 < (rearrangements t).length) :
    nextPermutation (rearrangements t)[k] = (true, (rearrangements t)[k + 1]) := by
  have hnext : nextPermutation? (rearrangements t)[k] = some (rearrangements t)[k + 1] :=
    List.isChain_iff_getElem.1 (isChain_rearrangementsOf ht rfl) k h
  simp only [nextPermutation, hnext]

theorem nextPermutation_getLast {k : Nat} (h : k + 1 = (rearrangements t).length) :
    nextPermutation ((rearrangements t)[k]) = (false, t) := by
  have hlast := getLast?_rearrangementsOf ht rfl
  rw [← rearrangements, List.getLast?_eq_getElem?, ← h, Nat.add_sub_cancel,
    List.getElem?_eq_getElem (by omega), Option.some.injEq] at hlast
  rw [hlast, nextPermutation, nextPermutation?_descending (List.pairwise_reverse.2 ht)]
  simp

/-- Where a rearrangement stands in the list decides how its step ends. -/
theorem nextPermutation_cases (hu : u.Perm t) : ∃ k, ∃ hk : k < (rearrangements t).length,
    (rearrangements t)[k] = u ∧
      ((∃ h : k + 1 < (rearrangements t).length, nextPermutation u = (true, (rearrangements t)[k + 1])) ∨
        k + 1 = (rearrangements t).length ∧ nextPermutation u = (false, t)) := by
  obtain ⟨k, hk, rfl⟩ := List.mem_iff_getElem.1 (mem_rearrangements.2 hu)
  refine ⟨k, hk, rfl, ?_⟩
  rcases Nat.lt_or_eq_of_le (Nat.succ_le_of_lt hk) with h | h
  · exact .inl ⟨h, nextPermutation_getElem ht h⟩
  · exact .inr ⟨h, nextPermutation_getLast ht h⟩

/-- A step goes to the next larger rearrangement if there is one, and else back to the sorted tuple. -/
theorem nextPermutation_successor (hu : u.Perm t) :
    (∃ v, nextPermutation u = (true, v) ∧ v.Perm t ∧ u < v ∧ ∀ w, w.Perm t → u < w → v ≤ w) ∨
      nextPermutation u = (false, t) ∧ ∀ w, w.Perm t → ¬u < w := by
  -- in the list, a larger rearrangement stands further behind
  have hsorted : (rearrangements t).SortedLT := (pairwise_lt_rearrangements ht).sortedLT
  obtain ⟨k, hk, rfl, ⟨h, hnext⟩ | ⟨h, hnext⟩⟩ := nextPermutation_cases ht hu
  · refine .inl ⟨_, hnext, mem_rearrangements.1 (List.getElem_mem _),
      hsorted.getElem_lt_getElem_iff.2 (Nat.lt_succ_self k), ?_⟩
    intro w hw huw
    obtain ⟨j, hj, rfl⟩ := List.mem_iff_getElem.1 (mem_rearrangements.2 hw)
    exact hsorted.getElem_le_getElem_iff.2 (hsorted.getElem_lt_getElem_iff.1 huw)
  · refine .inr ⟨hnext, fun w hw huw => ?_⟩
    obtain ⟨j, hj, rfl⟩ := List.mem_iff_getElem.1 (mem_rearrangements.2 hw)
    have hkj := hsorted.getElem_lt_getElem_iff.1 huw
    omega

theorem stepped_eq_getElem {k : Nat} (h : k < (rearrangements t).length) :
    stepped t k = (rearrangements t)[k] := by
  induction k with
  | zero => exact (getElem_zero_rearrangements ht h).symm
  | succ k ih => rw [stepped_succ, ih (by omega), nextPermutation_getElem ht h]

/-- The steps from the sorted tuple go through the list of its rearrangements. -/
theorem map_stepped : (List.range (rearrangements t).length).map (stepped t) = rearrangements t := by
  refine List.ext_getElem (by simp) fun k h _ => ?_
  rw [List.getElem_map, List.getElem_range]
  exact stepped_eq_getElem ht (by simpa using h)

/-! ### The count after each entry -/

omit ht in
theorem orbitSizeFrom_append {i size run last n : Nat} {xs ys : List Nat}
    (h : orbitSizeFrom i size run last (xs ++ ys) = .ok n) :
    ∃ m, orbitSizeFrom i size run last xs = .ok m := by
  induction xs generalizing i size run last with
  | nil => exact ⟨size, rfl⟩
  | cons x xs ih =>
    rw [List.cons_append, orbitSizeFrom] at h
    obtain ⟨product, hproduct, h⟩ := bind_eq_ok.1 h
    rw [orbitSizeFrom]
    exact exists_bind_ok hproduct (ih h)

/-- The count of a part at the front is on the way to the count of the whole. -/
theorem orbitSize_take {n : Nat} (h : orbitSize t = .ok n) (k : Nat) :
    orbitSize (t.take k) = .ok (rearrangements (t.take k)).length := by
  have hok : ∃ m, orbitSize (t.take k) = .ok m := by
    match t, k with
    | [], _ => exact ⟨1, by rw [List.take_nil]; rfl⟩
    | _ :: _, 0 => exact ⟨1, rfl⟩
    | x :: t, k + 1 =>
      rw [orbitSize, ← List.take_append_drop k t] at h
      exact orbitSizeFrom_append h
  obtain ⟨m, hm⟩ := hok
  rw [hm, orbitSize_eq_ok (ht.sublist (List.take_sublist k t)) hm]

omit ht in
theorem take_succ_perm {k x : Nat} (hx : t[k]? = some x) : (t.take (k + 1)).Perm (x :: t.take k) := by
  rw [List.take_add_one, hx]
  exact List.perm_append_singleton ..

/-- Where the count stands when it has taken up the entry at `k`. -/
theorem orbitSizeFrom_take {n k x : Nat} (h : orbitSize t = .ok n) (hx : t[k]? = some x) :
    orbitSizeFrom (k + 1) (rearrangements (t.take (k + 1))).length ((t.take (k + 1)).count x) x
      (t.drop (k + 1)) = .ok n := by
  induction k generalizing x with
  | zero =>
    match t, hx with
    | x :: t, rfl => exact (orbitSize_cons x t).symm.trans h
  | succ k ih =>
    obtain ⟨hk, rfl⟩ := List.getElem?_eq_some_iff.1 hx
    have hbefore : t[k]? = some t[k] := List.getElem?_eq_getElem (by omega)
    have hlength : (t.take (k + 1)).length = k + 1 := List.length_take_of_le (by omega)
    have hle := List.pairwise_iff_getElem.1 ht
    have hmax : ∀ z ∈ t.take (k + 1), z ≤ t[k] := by
      intro z hz
      obtain ⟨j, hj, rfl⟩ := List.mem_take_iff_getElem.1 hz
      rcases Nat.lt_or_eq_of_le (show j ≤ k by omega) with hjk | rfl
      · exact hle j k _ _ hjk
      · exact le_rfl
    have hcons := orbitSizeFrom_cons (t := t.drop (k + 2)) hmax (hle k (k + 1) _ hk (by omega))
    have hperm := take_succ_perm hx
    have hstep := ih hbefore
    -- the entry is taken up in front of the others, but only the multiset of the entries counts
    rw [hlength, List.length_cons, hlength, ← length_rearrangements_perm hperm, ← hperm.count_eq] at hcons
    rw [List.drop_eq_getElem_cons hk, hcons] at hstep
    obtain ⟨product, -, hstep⟩ := bind_eq_ok.1 hstep
    exact hstep

omit ht in
/-- The product that is divided when the entry at `k` is taken up. -/
theorem length_rearrangements_take {k x : Nat} (hx : t[k]? = some x) :
    (rearrangements (t.take (k + 1))).length * (t.take (k + 1)).count x =
      (rearrangements (t.take k)).length * (k + 1) := by
  obtain ⟨hk, -⟩ := List.getElem?_eq_some_iff.1 hx
  have hperm := take_succ_perm hx
  have hstep := length_rearrangements_cons x (t.take k)
  rw [List.length_take_of_le (by omega)] at hstep
  rw [length_rearrangements_perm hperm, hperm.count_eq, List.count_cons_self, hstep]

end Sorted

/-- Of a sorted tuple whose orbit is counted without overflow, the count is the multinomial coefficient and
each division on the way to it is exact. So many steps go through all rearrangements in lexicographic order
and back to the tuple, each to the next larger one. -/
theorem orbit_enumerated {t : List Nat} (ht : t.Pairwise (· ≤ ·)) :
    (t.length ≤ 20 → ∃ n, orbitSize t = .ok n) ∧
    (∀ n, orbitSize t = .ok n →
      n * ∏ x ∈ t.toFinset, (t.count x).factorial = t.length.factorial ∧
      (∀ k x, t[k]? = some x → ∃ size, orbitSize (t.take k) = .ok size ∧
        (t.take (k + 1)).count x ∣ size * (k + 1) ∧
        orbitSize (t.take (k + 1)) = .ok (size * (k + 1) / (t.take (k + 1)).count x) ∧
        orbitSizeFrom (k + 1) (size * (k + 1) / (t.take (k + 1)).count x) ((t.take (k + 1)).count x) x
          (t.drop (k + 1)) = .ok n) ∧
      (∀ k, k + 1 < n → (nextPermutation (stepped t k)).1 = true) ∧
      nextPermutation (stepped t (n - 1)) = (false, t) ∧
      ((List.range n).map (stepped t)).Pairwise (· < ·) ∧
      ∀ u, u ∈ (List.range n).map (stepped t) ↔ u.Perm t) ∧
    ∀ u, u.Perm t →
      (∃ v, nextPermutation u = (true, v) ∧ v.Perm t ∧ u < v ∧ ∀ w, w.Perm t → u < w → v ≤ w) ∨
        nextPermutation u = (false, t) ∧ ∀ w, w.Perm t → ¬u < w := by
  refine ⟨fun hlength => ?_, fun n hn => ?_, fun u hu => nextPermutation_successor ht hu⟩
  · have hsmall : t.length.factorial < Count.limit := (Nat.factorial_le hlength).trans_lt (by decide)
    exact ⟨_, orbitSize_eq ht hsmall⟩
  · obtain rfl := orbitSize_eq_ok ht hn
    have hpos : 0 < (rearrangements t).length := List.length_pos_iff.2 (rearrangementsOf_ne_nil rfl)
    refine ⟨length_rearrangements_mul fun x hx => List.mem_toFinset.2 hx, fun k x hx => ?_, fun k hk => ?_, ?_, ?_, ?_⟩
    · have hexact := length_rearrangements_take hx
      have hrun : 0 < (t.take (k + 1)).count x := by
        refine List.count_pos_iff.2 (List.mem_of_getElem? (i := k) ?_)
        rwa [List.getElem?_take_of_lt (by omega)]
      refine ⟨_, orbitSize_take ht hn k, ⟨_, by rw [← hexact, Nat.mul_comm]⟩, ?_⟩
      rw [← hexact, Nat.mul_div_cancel _ hrun]
      exact ⟨orbitSize_take ht hn (k + 1), orbitSizeFrom_take ht hn hx⟩
    · rw [stepped_eq_getElem ht (by omega), nextPermutation_getElem ht hk]
    · rw [stepped_eq_getElem ht (by omega), nextPermutation_getLast ht (by omega)]
    · rw [map_stepped ht]
      exact pairwise_lt_rearrangements ht
    · intro u
      rw [map_stepped ht, mem_rearrangements]

/-- The factorial of 22 is no count, but the rearrangements of 22 entries are counted if all but one are equal. -/
theorem orbit_enumerated_long : ∃ t : List Nat, t.length = 22 ∧ t.Pairwise (· ≤ ·) ∧ orbitSize t = .ok 22 ∧
    nextPermutation (stepped t 21) = (false, t) ∧ ((List.range 22).map (stepped t)).Pairwise (· < ·) ∧
    ∀ u, u ∈ (List.range 22).map (stepped t) ↔ u.Perm t := by
  have ht : (List.replicate 21 0 ++ [1]).Pairwise (· ≤ ·) := by decide
  have hn : orbitSize (List.replicate 21 0 ++ [1]) = .ok 22 := rfl
  obtain ⟨-, hcount, -⟩ := orbit_enumerated ht
  obtain ⟨-, -, -, hlast, hlt, hmem⟩ := hcount 22 hn
  exact ⟨_, rfl, ht, hn, hlast, hlt, hmem⟩

end TensorCalculus.Power
