import Mathlib.Algebra.BigOperators.Ring.List
import Mathlib.Tactic.Ring
import TensorCalculus.Proofs.Box
import TensorCalculus.Proofs.Rearrangement
import TensorCalculus.Proofs.Sorting

/-!
# Orbits of canonical tuples

The tuples that enter a power with a sign are the rearrangements of its canonical tuples, each tuple of
just one (`PowerKind.perm_orbits`). So a sum over all tuples of a box can be taken orbit by orbit
(`PowerKind.sum_multiIndices`).
-/

namespace TensorCalculus

namespace Power

theorem nodup_rearrangementsOf (n : Nat) (t : List Nat) : (rearrangementsOf n t).Nodup := by
  induction n generalizing t with
  | zero => exact List.nodup_singleton _
  | succ n ih =>
    rw [rearrangementsOf, List.nodup_flatMap]
    refine ⟨fun x _ => (ih _).map (List.cons_injective), (Occurrence.nodup_distinct t).imp ?_⟩
    intro x y hxy u hx hy
    obtain ⟨v, -, rfl⟩ := List.mem_map.1 hx
    obtain ⟨w, -, hw⟩ := List.mem_map.1 hy
    exact hxy (List.cons.inj hw).1.symm

theorem nodup_rearrangements (t : List Nat) : (rearrangements t).Nodup := nodup_rearrangementsOf _ t

theorem hasEqualNeighbours_of_pairwise_lt {xs : List Nat} (h : xs.Pairwise (· < ·)) :
    hasEqualNeighbours xs = false := by
  induction h with
  | nil => rfl
  | @cons x xs hx hxs ih =>
    cases xs with
    | nil => rfl
    | cons y ys =>
      have hxy : x < y := hx y (by simp)
      rw [hasEqualNeighbours, ih, Bool.or_false, beq_eq_false_iff_ne]
      omega

/-- Without repetition there are as many rearrangements as permutations. -/
theorem length_rearrangements_of_nodup {t : List Nat} (h : t.Nodup) :
    (rearrangements t).length = t.length.factorial := by
  have hone : stabilizer t.toFinset t = 1 := by
    refine Finset.prod_eq_one fun x hx => ?_
    rw [List.count_eq_one_of_mem h (List.mem_toFinset.1 hx), Nat.factorial_one]
  rw [← length_rearrangements_mul fun x hx => List.mem_toFinset.2 hx, hone, mul_one]

end Power

namespace PowerKind
variable {kind : PowerKind} {dim degree d : Nat} {t u : List Nat}

theorem IsCanonical.sorted_le (h : kind.IsCanonical dim degree t) : t.Pairwise (· ≤ ·) := by
  cases kind with
  | symmetric => exact h.sorted
  | exterior => exact h.sorted.imp Nat.le_of_lt

theorem canonicalize_of_perm (ht : t.Pairwise (· ≤ ·)) (h : u.Perm t) : (kind.canonicalize u).2 = t :=
  ((kind.canonicalize_perm u).trans h).eq_of_pairwise (fun _ _ _ _ => Nat.le_antisymm)
    (kind.canonicalize_sorted u) ht

/-- The rearrangements of a canonical tuple enter with a sign. -/
theorem sign_of_perm (ht : kind.IsCanonical dim degree t) (h : u.Perm t) :
    (kind.canonicalize u).1 = 1 ∨ (kind.canonicalize u).1 = -1 := by
  cases kind with
  | symmetric => exact .inl rfl
  | exterior =>
    have hsorted : (Power.sortFrom [] 0 u).1 = t := by
      rw [← canonicalize_snd .exterior, canonicalize_of_perm ht.sorted_le h]
    have hdistinct := Power.hasEqualNeighbours_of_pairwise_lt ht.sorted
    unfold canonicalize
    dsimp only
    rw [hsorted, hdistinct, if_neg Bool.false_ne_true]
    split
    · exact .inl rfl
    · exact .inr rfl

section Box
variable (hdegree : degree < Count.limit) (hd : kind.dimension dim degree = .ok d) {tuple : Nat → List Nat}
  (htuple : ∀ r < d, kind.unrank degree r = .ok (tuple r))
include hdegree hd htuple

theorem isCanonical_tuple {r : Nat} (hr : r < d) :
    kind.IsCanonical dim degree (tuple r) ∧ kind.codeRank (tuple r).reverse = r := by
  obtain ⟨t, ht, hcanonical, hrank⟩ := unrank_of_lt hdegree hd hr
  obtain rfl : tuple r = t := Except.ok.inj ((htuple r hr).symm.trans ht)
  exact ⟨hcanonical, hrank⟩

theorem mem_multiIndices_of_orbit {r : Nat} (hr : r < d) (hu : u ∈ Power.rearrangements (tuple r)) :
    u ∈ Box.multiIndices (List.replicate degree dim) ∧ (kind.canonicalize u).1 ≠ 0 := by
  obtain ⟨hcanonical, -⟩ := isCanonical_tuple hdegree hd htuple hr
  have hperm := Power.mem_rearrangements.1 hu
  refine ⟨Box.mem_multiIndices.2 ?_, ?_⟩
  · rw [← hcanonical.length, ← hperm.length_eq]
    exact Box.inBox_replicate fun a ha => hcanonical.below a (hperm.mem_iff.1 ha)
  · rcases sign_of_perm hcanonical hperm with hsign | hsign <;> simp [hsign]

theorem exists_orbit (hu : u ∈ Box.multiIndices (List.replicate degree dim))
    (hsign : (kind.canonicalize u).1 ≠ 0) : ∃ r < d, u ∈ Power.rearrangements (tuple r) := by
  have hbelow : ∀ a ∈ u, a < dim := by
    intro a ha
    obtain ⟨b, hb, hab⟩ := forall₂_exists_right (Box.mem_multiIndices.1 hu) ha
    rwa [List.eq_of_mem_replicate hb] at hab
  have hlength : u.length = degree := by
    rw [Box.length_of_mem_multiIndices hu, List.length_replicate]
  have hsorted := kind.isCanonical_canonicalize u hbelow hsign
  rw [hlength] at hsorted
  obtain ⟨-, hlt⟩ := rank_of_isCanonical hdegree hd hsorted
  obtain ⟨hcanonical, hrank⟩ := isCanonical_tuple hdegree hd htuple hlt
  refine ⟨_, hlt, Power.mem_rearrangements.2 ?_⟩
  rw [eq_of_codeRank_eq hcanonical hsorted hrank]
  exact (kind.canonicalize_perm u).symm

theorem nodup_orbits : ((List.range d).flatMap fun r => Power.rearrangements (tuple r)).Nodup := by
  rw [List.nodup_flatMap]
  refine ⟨fun r _ => Power.nodup_rearrangements _, List.nodup_range.imp_of_mem ?_⟩
  -- a tuple in two orbits would sort to both canonical tuples
  intro r s hr hs hne u hur hus
  obtain ⟨hcanonical, hrank⟩ := isCanonical_tuple hdegree hd htuple (List.mem_range.1 hr)
  obtain ⟨hcanonical', hrank'⟩ := isCanonical_tuple hdegree hd htuple (List.mem_range.1 hs)
  have hsorted : (kind.canonicalize u).2 = tuple r :=
    canonicalize_of_perm hcanonical.sorted_le (Power.mem_rearrangements.1 hur)
  have hsorted' : (kind.canonicalize u).2 = tuple s :=
    canonicalize_of_perm hcanonical'.sorted_le (Power.mem_rearrangements.1 hus)
  exact hne (by rw [← hrank, ← hrank', ← hsorted, ← hsorted'])

theorem perm_orbits : ((List.range d).flatMap fun r => Power.rearrangements (tuple r)).Perm
    ((Box.multiIndices (List.replicate degree dim)).filter fun u => (kind.canonicalize u).1 ≠ 0) := by
  rw [List.perm_ext_iff_of_nodup (nodup_orbits hdegree hd htuple) (Box.nodup_multiIndices.filter _)]
  intro u
  rw [List.mem_flatMap, List.mem_filter, decide_eq_true_iff]
  constructor
  · rintro ⟨r, hr, hu⟩
    exact mem_multiIndices_of_orbit hdegree hd htuple (List.mem_range.1 hr) hu
  · rintro ⟨hu, hsign⟩
    obtain ⟨r, hr, hur⟩ := exists_orbit hdegree hd htuple hu hsign
    exact ⟨r, List.mem_range.2 hr, hur⟩

theorem sum_multiIndices {M : Type} [AddCommMonoid M] (f : List Nat → M)
    (hf : ∀ u ∈ Box.multiIndices (List.replicate degree dim), (kind.canonicalize u).1 = 0 → f u = 0) :
    ((Box.multiIndices (List.replicate degree dim)).map f).sum =
      ((List.range d).map fun r => ((Power.rearrangements (tuple r)).map f).sum).sum := by
  have hrest : (((Box.multiIndices (List.replicate degree dim)).filter
      fun u => ¬(kind.canonicalize u).1 ≠ 0).map f).sum = 0 := by
    refine List.sum_eq_zero fun x hx => ?_
    obtain ⟨u, hu, rfl⟩ := List.mem_map.1 hx
    obtain ⟨hbox, hsign⟩ := List.mem_filter.1 hu
    exact hf u hbox (not_not.1 (of_decide_eq_true hsign))
  calc ((Box.multiIndices (List.replicate degree dim)).map f).sum
      = (((Box.multiIndices (List.replicate degree dim)).filter
          fun u => (kind.canonicalize u).1 ≠ 0).map f).sum := by
        rw [← List.sum_map_filter_add_sum_map_filter_not fun u => (kind.canonicalize u).1 ≠ 0, hrest,
          add_zero]
    _ = (((List.range d).flatMap fun r => Power.rearrangements (tuple r)).map f).sum :=
        ((perm_orbits hdegree hd htuple).map f).sum_eq.symm
    _ = ((List.range d).map fun r => ((Power.rearrangements (tuple r)).map f).sum).sum := by
        rw [List.map_flatMap, List.flatMap, List.sum_flatten, List.map_map]
        rfl

/-- On each orbit the first factor is a signed multiple of one value, so this comes before the sum. -/
theorem sum_multiIndices_mul {R : Type} [CommRing R] {f g sign : List Nat → R} {x scale : Nat → R}
    (hzero : ∀ u ∈ Box.multiIndices (List.replicate degree dim), (kind.canonicalize u).1 = 0 → f u = 0)
    (horbit : ∀ r < d, ∀ u ∈ Power.rearrangements (tuple r), f u = x r * (sign u * scale r)) :
    ((Box.multiIndices (List.replicate degree dim)).map fun u => f u * g u).sum =
      ((List.range d).map fun r =>
        x r * (((Power.rearrangements (tuple r)).map fun u => sign u * g u).sum * scale r)).sum := by
  rw [sum_multiIndices hdegree hd htuple _ fun u hu hsign => by rw [hzero u hu hsign, zero_mul]]
  congr 1
  refine List.map_congr_left fun r hr => ?_
  have hterm : ∀ u ∈ Power.rearrangements (tuple r), f u * g u = x r * scale r * (sign u * g u) := by
    intro u hu
    rw [horbit r (List.mem_range.1 hr) u hu]
    ring
  rw [List.map_congr_left hterm, List.sum_map_mul_left]
  ring

end Box

end PowerKind

end TensorCalculus
