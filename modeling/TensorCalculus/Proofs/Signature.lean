import Mathlib.Algebra.BigOperators.Fin
import Mathlib.GroupTheory.Perm.Fin
import TensorCalculus.Proofs.Orbit

/-!
# The sign of a tuple

Each exchange of neighbours in the sort takes away one inversion, so it makes as many exchanges as there are
inversions (`Power.sortFrom_exchanges`). The sign of an exterior tuple is then the product of the signs of
the differences over all pairs, `Power.signature`, also where an entry repeats. From the product one reads
off what a permutation of the entries does to the sign (`PowerKind.sign_permuted`). The inversions are pairs of
places (`Power.inversions_eq_card`), so all this can be said of the places of the tuple.
-/

namespace TensorCalculus

namespace Power

/-- The number of pairs of which the first entry is the larger. -/
def inversions : List Nat → Nat
  | [] => 0
  | x :: xs => xs.countP (· < x) + inversions xs

theorem inversions_of_sorted {xs : List Nat} (h : xs.Pairwise (· ≤ ·)) : inversions xs = 0 := by
  induction xs with
  | nil => rfl
  | cons x xs ih =>
    obtain ⟨hx, hxs⟩ := List.pairwise_cons.1 h
    rw [inversions, ih hxs, Nat.add_zero, List.countP_eq_zero]
    intro y hy
    simpa using hx y hy

/-- An entry behind larger ones is inverted with each of them. -/
theorem inversions_append_cons {x : Nat} {ys : List Nat} (h : ∀ y ∈ ys, x < y) (xs : List Nat) :
    inversions (ys ++ x :: xs) = ys.length + inversions (x :: (ys ++ xs)) := by
  induction ys with
  | nil => simp
  | cons y ys ih =>
    have hx : x < y := h y (by simp)
    have hrest := ih fun z hz => h z (by simp [hz])
    have hcount : (ys ++ x :: xs).countP (· < y) = (ys ++ xs).countP (· < y) + 1 := by
      rw [List.perm_middle.countP_eq, List.countP_cons_of_pos (by simpa using hx)]
    have hcount' : (y :: (ys ++ xs)).countP (· < x) = (ys ++ xs).countP (· < x) :=
      List.countP_cons_of_neg (by simpa using Nat.le_of_lt hx)
    simp only [List.cons_append, List.length_cons, inversions, hcount, hcount'] at hrest ⊢
    omega

/-- What an insertion exchanges, it takes off the inversions. -/
theorem insertSorted_inversions (x : Nat) {ys : List Nat} (h : ys.Pairwise (· ≤ ·)) (xs : List Nat) :
    (insertSorted x ys).2 + inversions ((insertSorted x ys).1 ++ xs) = inversions (ys ++ x :: xs) := by
  induction ys with
  | nil => simp [insertSorted]
  | cons y ys ih =>
    obtain ⟨hy, hys⟩ := List.pairwise_cons.1 h
    rw [insertSorted]
    split
    · have hperm : ((insertSorted x ys).1 ++ xs).Perm (ys ++ x :: xs) :=
        ((insertSorted_perm x ys).append_right xs).trans List.perm_middle.symm
      have hrest := ih hys
      simp only [List.cons_append, inversions, hperm.countP_eq]
      omega
    · next hyx =>
      have hlarger : ∀ z ∈ y :: ys, x < z := by
        intro z hz
        rcases List.mem_cons.1 hz with rfl | hz
        · omega
        · have := hy z hz
          omega
      rw [inversions_append_cons hlarger]
      rfl

theorem sortFrom_exchanges {sorted : List Nat} (h : sorted.Pairwise (· ≤ ·)) (exchanges : Nat)
    (xs : List Nat) : (sortFrom sorted exchanges xs).2 = exchanges + inversions (sorted ++ xs) := by
  induction xs generalizing sorted exchanges with
  | nil => rw [List.append_nil, inversions_of_sorted h]; rfl
  | cons x xs ih =>
    have hstep := insertSorted_inversions x h xs
    rw [sortFrom]
    dsimp only
    rw [ih (insertSorted_sorted x h)]
    omega

theorem hasEqualNeighbours_sortFrom (xs : List Nat) :
    hasEqualNeighbours (sortFrom [] 0 xs).1 = false ↔ xs.Nodup := by
  have hperm : (sortFrom [] 0 xs).1.Perm xs := by simpa using sortFrom_perm [] 0 xs
  have hsorted := sortFrom_sorted 0 xs .nil
  rw [← hperm.nodup_iff]
  constructor
  · intro h
    exact (pairwise_lt_of_hasEqualNeighbours hsorted h).imp Nat.ne_of_lt
  · intro h
    refine hasEqualNeighbours_of_pairwise_lt ?_
    exact (hsorted.and h).imp fun ⟨hle, hne⟩ => Nat.lt_of_le_of_ne hle hne

/-- The product over all pairs of the sign of the second entry less the first. -/
def signature : List Nat → Int
  | [] => 1
  | x :: xs => (xs.map fun y : Nat => ((y : Int) - x).sign).prod * signature xs

theorem prod_sign_sub {x : Nat} {ys : List Nat} (h : x ∉ ys) :
    (ys.map fun y : Nat => ((y : Int) - x).sign).prod = (-1) ^ ys.countP (· < x) := by
  induction ys with
  | nil => rfl
  | cons y ys ih =>
    simp only [List.mem_cons, not_or] at h
    rw [List.map_cons, List.prod_cons, ih h.2, List.countP_cons]
    rcases Nat.lt_or_gt_of_ne h.1 with hlt | hlt
    · rw [Int.sign_eq_one_of_pos (by omega)]
      simp [Nat.lt_asymm hlt]
    · rw [Int.sign_eq_neg_one_of_neg (by omega)]
      simp [hlt, pow_succ]

theorem signature_of_nodup {xs : List Nat} (h : xs.Nodup) : signature xs = (-1) ^ inversions xs := by
  induction xs with
  | nil => rfl
  | cons x xs ih =>
    obtain ⟨hx, hxs⟩ := List.nodup_cons.1 h
    rw [signature, inversions, prod_sign_sub hx, ih hxs, pow_add]

theorem signature_of_not_nodup {xs : List Nat} (h : ¬ xs.Nodup) : signature xs = 0 := by
  induction xs with
  | nil => exact absurd .nil h
  | cons x xs ih =>
    rw [signature, mul_eq_zero]
    by_cases hx : x ∈ xs
    · exact .inl (List.prod_eq_zero (List.mem_map.2 ⟨x, hx, by simp⟩))
    · exact .inr (ih fun hxs => h (List.nodup_cons.2 ⟨hx, hxs⟩))

theorem signature_ofFn {n : Nat} (f : Fin n → Nat) :
    signature (List.ofFn f) = ∏ i, ∏ j ∈ Finset.Ioi i, ((f j : Int) - f i).sign := by
  induction n with
  | zero => rfl
  | succ n ih =>
    rw [List.ofFn_succ, signature, ih, List.map_ofFn, List.prod_ofFn, Fin.prod_univ_succ,
      Fin.prod_Ioi_zero]
    simp only [Fin.prod_Ioi_succ]
    rfl

theorem inversions_ofFn {n : Nat} (f : Fin n → Nat) :
    inversions (List.ofFn f) = ∑ i, ∑ j ∈ Finset.Ioi i, if f j < f i then 1 else 0 := by
  have hcount : ∀ {n : Nat} (g : Fin n → Nat) (x : Nat),
      (List.ofFn g).countP (· < x) = ∑ j, if g j < x then 1 else 0 := by
    intro n g x
    induction n with
    | zero => rfl
    | succ n ih =>
      rw [List.ofFn_succ, List.countP_cons, ih, Fin.sum_univ_succ, Nat.add_comm]
      simp
  induction n with
  | zero => rfl
  | succ n ih =>
    rw [List.ofFn_succ, inversions, ih, hcount, Fin.sum_univ_succ, Fin.sum_Ioi_zero]
    simp only [Fin.sum_Ioi_succ]

/-- The inversions are the pairs of places of which the first holds the larger entry. -/
theorem inversions_eq_card (xs : List Nat) : inversions xs =
    (Finset.univ.filter fun p : Fin xs.length × Fin xs.length =>
      p.1 < p.2 ∧ xs.get p.2 < xs.get p.1).card := by
  conv_lhs => rw [← List.ofFn_get xs, inversions_ofFn]
  rw [Finset.card_filter, Fintype.sum_prod_type]
  refine Finset.sum_congr rfl fun i _ => ?_
  rw [← Finset.filter_lt_eq_Ioi, Finset.sum_filter]
  simp only [ite_and]

/-- The entries in the order of a permutation of the places. -/
def permuted (xs : List Nat) (σ : Equiv.Perm (Fin xs.length)) : List Nat := List.ofFn fun k => xs.get (σ k)

theorem permuted_perm (xs : List Nat) (σ : Equiv.Perm (Fin xs.length)) : (permuted xs σ).Perm xs := by
  have h := Equiv.Perm.ofFn_comp_perm σ xs.get
  rwa [List.ofFn_get] at h

theorem signature_permuted (xs : List Nat) (σ : Equiv.Perm (Fin xs.length)) :
    signature (permuted xs σ) = σ.sign * signature xs := by
  have hxs : signature xs = ∏ i, ∏ j ∈ Finset.Ioi i, ((xs.get j : Int) - xs.get i).sign := by
    rw [← signature_ofFn, List.ofFn_get]
  rw [permuted, signature_ofFn, hxs]
  refine σ.prod_Ioi_comp_eq_sign_mul_prod (f := fun i j => ((xs.get j : Int) - xs.get i).sign) ?_
  intro i j
  rw [← Int.sign_neg, neg_sub]

end Power

namespace PowerKind

/-- The sign of an exterior tuple is the product over its pairs. -/
theorem canonicalize_exterior (t : List Nat) : (exterior.canonicalize t).1 = Power.signature t := by
  have hexchanges := Power.sortFrom_exchanges .nil 0 t
  rw [List.nil_append, Nat.zero_add] at hexchanges
  unfold canonicalize
  dsimp only
  split
  · next hequal =>
    refine (Power.signature_of_not_nodup fun h => ?_).symm
    rw [(Power.hasEqualNeighbours_sortFrom t).2 h] at hequal
    cases hequal
  · next hequal =>
    rw [Bool.not_eq_true, Power.hasEqualNeighbours_sortFrom] at hequal
    dsimp only
    rw [Power.signature_of_nodup hequal, hexchanges]
    split
    · next heven => rw [Even.neg_one_pow (Nat.even_iff.2 heven)]
    · next hodd => rw [Odd.neg_one_pow (Nat.odd_iff.2 (by omega))]

theorem sign_permuted (t : List Nat) (σ : Equiv.Perm (Fin t.length)) :
    (exterior.canonicalize (Power.permuted t σ)).1 = σ.sign * (exterior.canonicalize t).1 := by
  rw [canonicalize_exterior, canonicalize_exterior, Power.signature_permuted]

theorem sign_eq_zero_iff (t : List Nat) : (exterior.canonicalize t).1 = 0 ↔ ¬ t.Nodup := by
  rw [canonicalize_exterior]
  constructor
  · intro h hnodup
    rw [Power.signature_of_nodup hnodup] at h
    exact pow_ne_zero _ (by decide) h
  · exact Power.signature_of_not_nodup

theorem canonicalize_snd_permuted (kind : PowerKind) (t : List Nat) (σ : Equiv.Perm (Fin t.length)) :
    (kind.canonicalize (Power.permuted t σ)).2 = (kind.canonicalize t).2 :=
  canonicalize_of_perm (kind.canonicalize_sorted t)
    ((Power.permuted_perm t σ).trans (kind.canonicalize_perm t).symm)

/-- A tuple is sorted, and the sign tells how: it is `1` in a symmetric power, and in an exterior power `0` if
an entry repeats and else the parity of the inversions. So a permutation of the places enters by its sign
alone. -/
theorem canonicalize_sorts_with_sign (t : List Nat) :
    (∀ kind : PowerKind, (kind.canonicalize t).2.Pairwise (· ≤ ·) ∧ (kind.canonicalize t).2.Perm t) ∧
    (symmetric.canonicalize t).1 = 1 ∧
    ((exterior.canonicalize t).1 = 0 ↔ ∃ i j : Fin t.length, i < j ∧ t.get i = t.get j) ∧
    ((¬∃ i j : Fin t.length, i < j ∧ t.get i = t.get j) → (exterior.canonicalize t).1 =
      (-1) ^ (Finset.univ.filter fun p : Fin t.length × Fin t.length =>
        p.1 < p.2 ∧ t.get p.2 < t.get p.1).card) ∧
    ∀ σ : Equiv.Perm (Fin t.length),
      (∀ kind : PowerKind, (kind.canonicalize (Power.permuted t σ)).2 = (kind.canonicalize t).2) ∧
      (exterior.canonicalize (Power.permuted t σ)).1 = σ.sign * (exterior.canonicalize t).1 := by
  have hnodup : ¬t.Nodup ↔ ∃ i j : Fin t.length, i < j ∧ t.get i = t.get j := by
    rw [List.nodup_iff_pairwise_ne, List.pairwise_iff_get]
    simp
  refine ⟨fun kind => ⟨kind.canonicalize_sorted t, kind.canonicalize_perm t⟩, rfl,
    (sign_eq_zero_iff t).trans hnodup, fun h => ?_,
    fun σ => ⟨fun kind => kind.canonicalize_snd_permuted t σ, sign_permuted t σ⟩⟩
  rw [← hnodup, not_not] at h
  rw [canonicalize_exterior, Power.signature_of_nodup h, Power.inversions_eq_card]

end PowerKind

end TensorCalculus
