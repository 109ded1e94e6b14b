import Mathlib.Data.Nat.Choose.Basic
import TensorCalculus.Power.Tuple
import TensorCalculus.Proofs.Checked

/-!
# Binomial coefficients in counts

`Power.binomial n k` is the coefficient itself as long as the largest product on the way to it is a
count (`binomial_eq`). That product is `peak n k`: the products grow up to the last one. A coefficient
on the way to a larger one has a smaller peak (`peak_le_peak`), which is all that the loops over
coefficients need. In every state that the loop comes to, its product so far is a coefficient
(`Visits.eq_choose`), so that nothing is lost by dividing.
-/

namespace TensorCalculus.Power

/-- The largest product that is formed for the coefficient of `n` over `k`. -/
def peak (n k : Nat) : Nat := min k (n - k) * n.choose k

theorem mul_choose_le_succ {n j : Nat} (h : 2 * (j + 1) ≤ n) :
    j * n.choose j ≤ (j + 1) * n.choose (j + 1) := by
  have hle : n.choose j ≤ n.choose (j + 1) := Nat.choose_le_succ_of_lt_half_left (by omega)
  exact Nat.mul_le_mul (by omega) hle

theorem mul_choose_le {n i j : Nat} (hij : i ≤ j) (hj : 2 * j ≤ n) :
    i * n.choose i ≤ j * n.choose j := by
  induction j, hij using Nat.le_induction with
  | base => exact le_rfl
  | succ j hij ih => exact (ih (by omega)).trans (mul_choose_le_succ hj)

/-- One step of the loop goes from one coefficient to the next; the division is exact. -/
theorem choose_step (n i : Nat) : n.choose i * (n - i) / (i + 1) = n.choose (i + 1) := by
  rw [← Nat.choose_succ_right_eq, Nat.mul_div_cancel _ (by omega)]

/-- The loop from the coefficient over `i` to the one over `i + steps`, in the lower half of a row. -/
theorem binomialFrom_eq {n : Nat} : ∀ {steps i : Nat}, 2 * (i + steps) ≤ n →
    i * n.choose i < Count.limit →
    binomialFrom n steps i (n.choose i) =
      if (i + steps) * n.choose (i + steps) < Count.limit then .ok (n.choose (i + steps))
      else .error .overflow
  | 0, i, _, hi => by simp [binomialFrom, hi]
  | steps + 1, i, h, hi => by
    have hprod : n.choose i * (n - i) = (i + 1) * n.choose (i + 1) := by
      rw [← Nat.choose_succ_right_eq, Nat.mul_comm]
    rw [binomialFrom]
    by_cases hlt : (i + 1) * n.choose (i + 1) < Count.limit
    · rw [Count.mul_of_lt (by rw [hprod]; exact hlt), ok_bind, choose_step]
      rw [binomialFrom_eq (by omega) hlt, Nat.add_right_comm, Nat.add_assoc]
    · have hle : (i + 1) * n.choose (i + 1) ≤ (i + (steps + 1)) * n.choose (i + (steps + 1)) :=
        mul_choose_le (by omega) h
      rw [if_neg (by omega), Count.mul, Count.check, hprod, if_neg hlt]
      rfl

theorem choose_min {n k : Nat} (h : k ≤ n) : n.choose (min k (n - k)) = n.choose k := by
  rcases Nat.le_total k (n - k) with hk | hk
  · rw [Nat.min_eq_left hk]
  · rw [Nat.min_eq_right hk, Nat.choose_symm h]

/-- The coefficient is exact, or a product on the way to it is no count. -/
theorem binomial_eq (n k : Nat) :
    binomial n k = if peak n k < Count.limit then .ok (n.choose k) else .error .overflow := by
  unfold binomial peak
  split
  · next h =>
    rw [Nat.choose_eq_zero_of_lt h, Nat.mul_zero, if_pos (by decide)]
  · next h =>
    have hstart : 0 * n.choose 0 < Count.limit := by rw [Nat.zero_mul]; decide
    have hloop : binomialFrom n (min k (n - k)) 0 (n.choose 0) = _ :=
      binomialFrom_eq (by omega) hstart
    rw [Nat.choose_zero_right, Nat.zero_add] at hloop
    rw [hloop, choose_min (by omega)]

theorem binomial_eq_ok {n k c : Nat} :
    binomial n k = .ok c ↔ peak n k < Count.limit ∧ n.choose k = c := by
  rw [binomial_eq]
  split <;> simp [*]

theorem binomial_of_peak {n k : Nat} (h : peak n k < Count.limit) :
    binomial n k = .ok (n.choose k) := binomial_eq_ok.2 ⟨h, rfl⟩

/-! ### The states of the loop -/

/-- The loop for the coefficient of `n` over `k` comes to the factor `n - i` with the product `acc` so far and
`steps` factors to go. -/
inductive Visits (n k : Nat) : (steps i acc : Nat) → Prop where
  | start (h : k ≤ n) : Visits n k (min k (n - k)) 0 1
  | next {steps i acc product : Nat} (h : Visits n k (steps + 1) i acc)
      (hproduct : Count.mul acc (n - i) = .ok product) : Visits n k steps (i + 1) (product / (i + 1))

section Visits
variable {n k steps i acc : Nat}

theorem Visits.resume (h : Visits n k steps i acc) : binomial n k = binomialFrom n steps i acc := by
  induction h with
  | start h => rw [binomial, if_neg (by omega)]
  | next _ hproduct ih => rw [ih, binomialFrom, hproduct, ok_bind]

theorem Visits.add_eq (h : Visits n k steps i acc) : i + steps = min k (n - k) := by
  induction h with
  | start _ => exact Nat.zero_add _
  | next _ _ ih => omega

/-- One turn goes from a coefficient to the next one, whatever the loop is to end with. -/
theorem Visits.eq_choose (h : Visits n k steps i acc) : acc = n.choose i := by
  induction h with
  | start _ => exact (Nat.choose_zero_right n).symm
  | next _ hproduct ih =>
    obtain ⟨-, rfl⟩ := Count.mul_eq_ok.1 hproduct
    rw [ih, choose_step]

theorem Visits.lt (h : Visits n k (steps + 1) i acc) : i < n := by
  have := h.add_eq
  omega

theorem Visits.dvd_mul (h : Visits n k steps i acc) : i + 1 ∣ acc * (n - i) := by
  rw [h.eq_choose, ← Nat.choose_succ_right_eq]
  exact Nat.dvd_mul_left _ _

/-- There are no subsets of more elements. Otherwise the loop overflows exactly if the last product, of the smaller
of the two parts with the coefficient, is no count, and else it gives the coefficient. In no state of the loop
does the difference fall below zero or the division leave a remainder. -/
theorem binomial_exact_or_overflows (n k : Nat) :
    (n < k → binomial n k = .ok 0) ∧
    (k ≤ n →
      (binomial n k = .error .overflow ↔ Count.limit ≤ min k (n - k) * n.choose (min k (n - k))) ∧
      (binomial n k ≠ .error .overflow → binomial n k = .ok (n.choose k))) ∧
    ∀ steps i acc, Visits n k (steps + 1) i acc →
      binomial n k = binomialFrom n (steps + 1) i acc ∧ i < n ∧ i + 1 ∣ acc * (n - i) := by
  refine ⟨fun h => if_pos h, fun h => ?_, fun steps i acc h => ⟨h.resume, h.lt, h.dvd_mul⟩⟩
  rw [binomial_eq, peak, choose_min h]
  split
  · next hlt => exact ⟨by simpa using hlt, fun _ => rfl⟩
  · next hle => exact ⟨by simpa using hle, fun hne => absurd rfl hne⟩

/-- The coefficient over 31 of 63 elements would be a count, but the last product on the way to it is none. -/
theorem binomial_exact_or_overflows_middle :
    binomial 2 3 = .ok 0 ∧ binomial 62 31 = .ok (Nat.choose 62 31) ∧ binomial 63 32 = .error .overflow ∧
    Count.limit ≤ 31 * Nat.choose 63 31 ∧ Nat.choose 63 31 < Count.limit ∧
    Visits 62 31 30 1 62 ∧ 1 < 62 ∧ 2 ∣ 62 * (62 - 1) := by
  have hoverflow : binomial 63 32 = .error .overflow := by decide +kernel
  have hsmall : Nat.choose 63 31 < Count.limit := by
    rw [Nat.choose_eq_descFactorial_div_factorial]
    decide +kernel
  have hstart : Visits 62 31 31 0 1 := .start (by decide)
  have hvisits : Visits 62 31 30 1 62 := hstart.next rfl
  obtain ⟨hnone, -⟩ := binomial_exact_or_overflows 2 3
  obtain ⟨-, hexact, hstates⟩ := binomial_exact_or_overflows 62 31
  obtain ⟨-, hsharp, -⟩ := binomial_exact_or_overflows 63 32
  exact ⟨hnone (by decide), (hexact (by decide)).2 (by decide +kernel), hoverflow,
    (hsharp (by decide)).1.1 hoverflow, hsmall, hvisits, (hstates _ _ _ hvisits).2⟩

end Visits

/-! ### Peaks of larger coefficients -/

theorem choose_add_le_choose_add {a b c d : Nat} (hac : a ≤ c) (hbd : b ≤ d) :
    (a + b).choose a ≤ (c + d).choose c := by
  calc (a + b).choose a ≤ (a + d).choose a := Nat.choose_le_choose a (by omega)
    _ = (a + d).choose d := Nat.choose_symm_add
    _ ≤ (c + d).choose d := Nat.choose_le_choose d (by omega)
    _ = (c + d).choose c := Nat.choose_symm_add.symm

/-- The peak grows in both parts of the row that a coefficient cuts off. -/
theorem peak_le_peak {n k n' k' : Nat} (hk : k ≤ k') (hn : n - k ≤ n' - k') :
    peak n k ≤ peak n' k' := by
  unfold peak
  by_cases hkn : k < n
  · obtain ⟨b, rfl⟩ := Nat.exists_eq_add_of_le hkn.le
    obtain ⟨d, rfl⟩ := Nat.exists_eq_add_of_le (show k' ≤ n' by omega)
    simp only [Nat.add_sub_cancel_left] at hn ⊢
    exact Nat.mul_le_mul (by omega) (choose_add_le_choose_add hk hn)
  · simp [show n - k = 0 by omega]

/-- A row that is neither at its first nor at its last coefficient is no longer than the peak. -/
theorem le_peak {n k : Nat} (h0 : 0 < k) (hk : k < n) : n ≤ peak n k := by
  have h1 : peak n 1 ≤ peak n k := by
    rcases Nat.le_total k (n - k) with h | h
    · unfold peak
      rw [Nat.min_eq_left (by omega), Nat.min_eq_left h]
      exact mul_choose_le h0 (by omega)
    · unfold peak
      rw [Nat.min_eq_left (by omega), Nat.min_eq_right h, ← Nat.choose_symm hk.le]
      exact mul_choose_le (by omega) (by omega)
  have h2 : peak n 1 = n := by
    unfold peak
    rw [Nat.min_eq_left (by omega), Nat.choose_one_right, Nat.one_mul]
  omega

theorem choose_lt_limit {n k : Nat} (h : peak n k < Count.limit) : n.choose k < Count.limit := by
  by_cases hk : 0 < k ∧ k < n
  · have hmin : 1 * n.choose k ≤ peak n k := Nat.mul_le_mul_right _ (by omega)
    omega
  · have hone : n.choose k ≤ 1 := by
      rcases Nat.lt_or_ge n k with hn | hn
      · rw [Nat.choose_eq_zero_of_lt hn]; omega
      · rcases (show k = 0 ∨ k = n by omega) with rfl | rfl <;> simp
    exact hone.trans_lt (by decide)

/-- In a column the coefficients grow at least by one. -/
theorem le_choose {n k : Nat} (hk : 0 < k) : n + 1 - k ≤ n.choose k := by
  induction n with
  | zero => omega
  | succ n ih =>
    obtain ⟨k, rfl⟩ := Nat.exists_eq_add_of_lt hk
    rw [Nat.zero_add, Nat.choose_succ_succ'] at *
    by_cases h : k ≤ n
    · have := Nat.choose_pos h
      omega
    · omega

end TensorCalculus.Power
