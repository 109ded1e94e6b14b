import TensorCalculus.Proofs.Rank

/-!
# Sorting a tuple

`canonicalize` sorts by insertion: its second part is the sorted rearrangement of the tuple, which is
canonical unless the sign is zero.
-/

namespace TensorCalculus

namespace Power

theorem insertSorted_perm (x : Nat) (ys : List Nat) : (insertSorted x ys).1.Perm (x :: ys) := by
  induction ys with
  | nil => exact .refl _
  | cons y ys ih =>
    rw [insertSorted]
    split
    · exact (ih.cons y).trans (.swap ..)
    · exact .refl _

theorem insertSorted_sorted (x : Nat) {ys : List Nat} (h : ys.Pairwise (· ≤ ·)) :
    (insertSorted x ys).1.Pairwise (· ≤ ·) := by
  induction ys with
  | nil => exact List.pairwise_singleton ..
  | cons y ys ih =>
    obtain ⟨hy, hys⟩ := List.pairwise_cons.1 h
    rw [insertSorted]
    split
    · next hyx =>
      refine List.pairwise_cons.2 ⟨fun z hz => ?_, ih hys⟩
      rcases List.mem_cons.1 ((insertSorted_perm x ys).mem_iff.1 hz) with rfl | hz
      · exact hyx
      · exact hy z hz
    · next hyx =>
      refine List.pairwise_cons.2 ⟨fun z hz => ?_, h⟩
      rcases List.mem_cons.1 hz with rfl | hz
      · omega
      · have := hy z hz
        omega

theorem sortFrom_perm (sorted : List Nat) (exchanges : Nat) (xs : List Nat) :
    (sortFrom sorted exchanges xs).1.Perm (xs ++ sorted) := by
  induction xs generalizing sorted exchanges with
  | nil => exact .refl _
  | cons x xs ih =>
    refine (ih _ _).trans ?_
    exact ((insertSorted_perm x sorted).append_left xs).trans List.perm_middle

theorem sortFrom_sorted {sorted : List Nat} (exchanges : Nat) (xs : List Nat)
    (h : sorted.Pairwise (· ≤ ·)) : (sortFrom sorted exchanges xs).1.Pairwise (· ≤ ·) := by
  induction xs generalizing sorted exchanges with
  | nil => exact h
  | cons x xs ih => exact ih _ (insertSorted_sorted x h)

theorem pairwise_lt_of_hasEqualNeighbours {xs : List Nat} (h : xs.Pairwise (· ≤ ·))
    (hequal : hasEqualNeighbours xs = false) : xs.Pairwise (· < ·) := by
  induction xs with
  | nil => exact .nil
  | cons x xs ih =>
    obtain ⟨hx, hxs⟩ := List.pairwise_cons.1 h
    cases xs with
    | nil => exact List.pairwise_singleton ..
    | cons y ys =>
      rw [hasEqualNeighbours, Bool.or_eq_false_iff] at hequal
      have hrest := ih hxs hequal.2
      have hxy : x < y := lt_of_le_of_ne (hx y (by simp)) (by simpa using hequal.1)
      refine List.pairwise_cons.2 ⟨fun z hz => ?_, hrest⟩
      rcases List.mem_cons.1 hz with rfl | hz
      · exact hxy
      · exact hxy.trans ((List.pairwise_cons.1 hrest).1 z hz)

end Power

namespace PowerKind
variable (kind : PowerKind) (tuple : List Nat)

theorem canonicalize_snd : (kind.canonicalize tuple).2 = (Power.sortFrom [] 0 tuple).1 := by
  unfold canonicalize
  cases kind with
  | symmetric => rfl
  | exterior =>
    dsimp only
    split <;> rfl

theorem canonicalize_perm : (kind.canonicalize tuple).2.Perm tuple := by
  rw [canonicalize_snd]
  simpa using Power.sortFrom_perm [] 0 tuple

theorem canonicalize_sorted : (kind.canonicalize tuple).2.Pairwise (· ≤ ·) := by
  rw [canonicalize_snd]
  exact Power.sortFrom_sorted 0 tuple .nil

/-- A tuple that enters with a sign sorts to a canonical one. -/
theorem isCanonical_canonicalize {dim : Nat} (hbelow : ∀ a ∈ tuple, a < dim)
    (hsign : (kind.canonicalize tuple).1 ≠ 0) :
    kind.IsCanonical dim tuple.length (kind.canonicalize tuple).2 := by
  have hperm := kind.canonicalize_perm tuple
  have hsorted := kind.canonicalize_sorted tuple
  refine ⟨hperm.length_eq, fun a ha => hbelow a (hperm.mem_iff.1 ha), ?_⟩
  cases kind with
  | symmetric => exact hsorted
  | exterior =>
    refine Power.pairwise_lt_of_hasEqualNeighbours hsorted ?_
    rw [canonicalize_snd]
    unfold canonicalize at hsign
    dsimp only at hsign
    by_contra hequal
    rw [Bool.not_eq_false] at hequal
    simp [hequal] at hsign

end PowerKind

end TensorCalculus
