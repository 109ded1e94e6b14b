import Mathlib.Data.List.Sort
import Mathlib.Data.Nat.Factorial.BigOperators
import Mathlib.Algebra.BigOperators.Ring.List
import TensorCalculus.Power.Orbit
import TensorCalculus.Proofs.Checked
import TensorCalculus.Proofs.Occurrence

/-!
# The rearrangements of a tuple

`rearrangements t` lists the different rearrangements of a sorted tuple: for each of its different
entries in turn, the ones that begin with it. Stepping from the sorted tuple visits this list in order
and ends at its end (`isChain_rearrangementsOf`), and its length is the size of the orbit
(`orbitSize_eq`). So the loop over the orbit is a fold over this list (`foldRearrangements_eq`).
-/

namespace TensorCalculus.Power

/-- The different rearrangements of the first `n` entries of a sorted list, by their first entry. -/
def rearrangementsOf : Nat → List Nat → List (List Nat)
  | 0, _ => [[]]
  | n + 1, t => (Occurrence.distinct t).flatMap fun x => (rearrangementsOf n (t.erase x)).map (x :: ·)

/-- The different rearrangements of a sorted tuple in lexicographic order. -/
def rearrangements (t : List Nat) : List (List Nat) := rearrangementsOf t.length t

theorem mem_rearrangementsOf {n : Nat} {t u : List Nat} (hn : n = t.length) :
    u ∈ rearrangementsOf n t ↔ u.Perm t := by
  induction n generalizing t u with
  | zero =>
    rw [List.length_eq_zero_iff.1 hn.symm]
    simp [rearrangementsOf]
  | succ n ih =>
    have hlen : ∀ x ∈ t, n = (t.erase x).length := fun x hx => by
      rw [List.length_erase_of_mem hx]
      omega
    simp only [rearrangementsOf, List.mem_flatMap, List.mem_map, Occurrence.mem_distinct]
    constructor
    · rintro ⟨x, hx, v, hv, rfl⟩
      exact (((ih (hlen x hx)).1 hv).cons x).trans (List.perm_cons_erase hx).symm
    · intro h
      cases u with
      | nil =>
        rw [List.nil_perm] at h
        simp [h] at hn
      | cons x v =>
        have hx : x ∈ t := h.subset (by simp)
        exact ⟨x, hx, v, (ih (hlen x hx)).2 (List.cons_perm_iff_perm_erase.1 h).2, rfl⟩

theorem mem_rearrangements {t u : List Nat} : u ∈ rearrangements t ↔ u.Perm t :=
  mem_rearrangementsOf rfl

/-! ### Stepping -/

theorem exchangeLastLarger_eq_none {x : Nat} {ys : List Nat} (h : ∀ y ∈ ys, y ≤ x) :
    exchangeLastLarger x ys = none := by
  induction ys with
  | nil => rfl
  | cons y ys ih =>
    have hy : y ≤ x := h y (by simp)
    rw [exchangeLastLarger, ih fun z hz => h z (by simp [hz])]
    simp only
    rw [if_neg (by omega)]

theorem exchangeLastLarger_append {x y : Nat} (front back : List Nat) (hy : x < y)
    (hback : ∀ z ∈ back, z ≤ x) :
    exchangeLastLarger x (front ++ y :: back) = some (y, front ++ x :: back) := by
  induction front with
  | nil =>
    rw [List.nil_append, exchangeLastLarger, exchangeLastLarger_eq_none hback]
    simp only
    rw [if_pos hy]
    rfl
  | cons z front ih => rw [List.cons_append, exchangeLastLarger, ih]; rfl

/-- A descending tuple is the last one. -/
theorem nextPermutation?_descending {t : List Nat} (h : t.Pairwise (· ≥ ·)) :
    nextPermutation? t = none := by
  induction h with
  | nil => rfl
  | cons hx _ ih => rw [nextPermutation?, ih, exchangeLastLarger_eq_none hx]; rfl

/-- From the last tuple that begins with `x` to the first that begins with the next larger entry. -/
theorem nextPermutation?_carry {t : List Nat} (ht : t.Pairwise (· ≤ ·)) {x y : Nat} (hx : x ∈ t)
    (hy : y ∈ t) (hxy : x < y) (hnext : ∀ z ∈ t, x < z → y ≤ z) :
    nextPermutation? (x :: (t.erase x).reverse) = some (y :: t.erase y) := by
  have hsorted : (t.erase x).Pairwise (· ≤ ·) := ht.sublist List.erase_sublist
  have hy' : y ∈ t.erase x := (List.mem_erase_of_ne (by omega)).2 hy
  obtain ⟨before, after, hsplit, hnot⟩ := List.eq_append_cons_of_mem hy'
  have hlast : nextPermutation? (t.erase x).reverse = none :=
    nextPermutation?_descending (List.pairwise_reverse.2 hsorted)
  rw [hsplit, List.pairwise_append, List.pairwise_cons] at hsorted
  obtain ⟨hbefore, ⟨hafter, hafter'⟩, hcross⟩ := hsorted
  -- up to the first `y` there is nothing above `x`
  have hle : ∀ z ∈ before, z ≤ x := by
    intro z hz
    have hzt : z ∈ t := List.mem_of_mem_erase (by rw [hsplit]; simp [hz])
    by_contra hcon
    have h1 := hnext z hzt (by omega)
    have h2 := hcross z hz y (by simp)
    exact hnot ((show z = y by omega) ▸ hz)
  have hperm : (y :: (before ++ x :: after)).Perm t := by
    calc (y :: (before ++ x :: after)).Perm (y :: x :: (before ++ after)) := List.perm_middle.cons y
      List.Perm _ (x :: y :: (before ++ after)) := .swap ..
      List.Perm _ (x :: (before ++ y :: after)) := List.perm_middle.symm.cons x
      List.Perm _ t := hsplit ▸ (List.perm_cons_erase hx).symm
  have heq : before ++ x :: after = t.erase y := by
    refine List.Perm.eq_of_pairwise' (r := (· ≤ ·)) ?_ (ht.sublist List.erase_sublist)
      (List.cons_perm_iff_perm_erase.1 hperm).2
    rw [List.pairwise_append, List.pairwise_cons]
    refine ⟨hbefore, ⟨fun z hz => hxy.le.trans (hafter z hz), hafter'⟩, ?_⟩
    intro a ha b hb
    rcases List.mem_cons.1 hb with rfl | hb
    · exact hle a ha
    · exact hcross a ha b (by simp [hb])
  rw [nextPermutation?, hlast, hsplit, List.reverse_append, List.reverse_cons, List.append_assoc,
    List.singleton_append,
    exchangeLastLarger_append _ _ hxy fun z hz => hle z (List.mem_reverse.1 hz)]
  simp [heq]

/-! ### The list is visited in order -/

theorem rearrangementsOf_ne_nil {n : Nat} {t : List Nat} (hn : n = t.length) :
    rearrangementsOf n t ≠ [] :=
  List.ne_nil_of_mem ((mem_rearrangementsOf hn).2 (.refl t))

section Sorted
variable {t : List Nat} (ht : t.Pairwise (· ≤ ·))
include ht

theorem pairwise_lt_distinct : (Occurrence.distinct t).Pairwise (· < ·) :=
  ((ht.sublist (Occurrence.distinct_sublist t)).and (Occurrence.nodup_distinct t)).imp
    fun h => lt_of_le_of_ne h.1 h.2

/-- Neighbours among the different entries of a sorted tuple have no entry between them. -/
theorem isChain_distinct : (Occurrence.distinct t).IsChain fun x y =>
    x ∈ t ∧ y ∈ t ∧ x < y ∧ ∀ z ∈ t, x < z → y ≤ z := by
  have hlt := List.pairwise_iff_getElem.1 (pairwise_lt_distinct ht)
  rw [List.isChain_iff_getElem]
  intro i hi
  refine ⟨Occurrence.mem_distinct.1 (List.getElem_mem _), Occurrence.mem_distinct.1 (List.getElem_mem _),
    hlt i (i + 1) _ hi (by omega), ?_⟩
  intro z hz hxz
  obtain ⟨j, hj, rfl⟩ := List.mem_iff_getElem.1 (Occurrence.mem_distinct.2 hz)
  rcases lt_trichotomy (i + 1) j with h | rfl | h
  · exact (hlt (i + 1) j hi hj h).le
  · exact le_rfl
  · rcases Nat.lt_or_eq_of_le (Nat.le_of_lt_succ h) with h | rfl
    · exact absurd (hlt j i hj (by omega) h) (by omega)
    · exact absurd hxz (lt_irrefl _)

theorem head?_rearrangementsOf {n : Nat} (hn : n = t.length) :
    (rearrangementsOf n t).head? = some t := by
  induction n generalizing t with
  | zero => rw [List.length_eq_zero_iff.1 hn.symm]; rfl
  | succ n ih =>
    match t, hn with
    | x :: t, hn =>
      have hhead := ih (List.pairwise_cons.1 ht).2 (by simpa using hn)
      rw [rearrangementsOf, Occurrence.distinct_cons, List.flatMap_cons, List.erase_cons_head,
        List.head?_append, List.head?_map, hhead]
      rfl

theorem getLast?_rearrangementsOf {n : Nat} (hn : n = t.length) :
    (rearrangementsOf n t).getLast? = some t.reverse := by
  induction n generalizing t with
  | zero => rw [List.length_eq_zero_iff.1 hn.symm]; rfl
  | succ n ih =>
    obtain hnil | ⟨init, y, hy⟩ := List.eq_nil_or_concat (Occurrence.distinct t)
    · have hz : ∀ z, z ∉ t := fun z hz => by simpa [hnil] using Occurrence.mem_distinct.2 hz
      simp [List.eq_nil_iff_forall_not_mem.2 hz] at hn
    have hyt : y ∈ t := Occurrence.mem_distinct.1 (by rw [hy]; simp)
    have hmax : ∀ z ∈ t, z ≤ y := by
      intro z hz
      have hlt := pairwise_lt_distinct ht
      have hz := Occurrence.mem_distinct.2 hz
      rw [hy, List.concat_eq_append, List.pairwise_append] at hlt
      rw [hy, List.concat_eq_append, List.mem_append, List.mem_singleton] at hz
      rcases hz with hz | rfl
      · exact (hlt.2.2 z hz y (by simp)).le
      · exact le_rfl
    have hlast := ih (ht.sublist List.erase_sublist) (t := t.erase y)
      (by rw [List.length_erase_of_mem hyt]; omega)
    have hdesc : y :: (t.erase y).reverse = t.reverse := by
      refine List.Perm.eq_of_pairwise' (r := (· ≥ ·)) ?_ (List.pairwise_reverse.2 ht) ?_
      · rw [List.pairwise_cons, List.pairwise_reverse]
        exact ⟨fun z hz => hmax z (List.mem_of_mem_erase (List.mem_reverse.1 hz)),
          ht.sublist List.erase_sublist⟩
      · exact ((List.reverse_perm _).cons y).trans
          ((List.perm_cons_erase hyt).symm.trans (List.reverse_perm t).symm)
    rw [rearrangementsOf, hy, List.concat_eq_append, List.flatMap_append, List.flatMap_singleton,
      List.getLast?_append, List.getLast?_map, hlast]
    simp [hdesc]

theorem isChain_rearrangementsOf {n : Nat} (hn : n = t.length) :
    (rearrangementsOf n t).IsChain fun u v => nextPermutation? u = some v := by
  induction n generalizing t with
  | zero => exact .singleton _
  | succ n ih =>
    have hlen : ∀ x ∈ t, n = (t.erase x).length := fun x hx => by
      rw [List.length_erase_of_mem hx]
      omega
    rw [rearrangementsOf, List.flatMap_def, List.isChain_flatten, List.isChain_map]
    · constructor
      · -- within one block the first entry stays
        intro l hl
        obtain ⟨x, hx, rfl⟩ := List.mem_map.1 hl
        rw [List.isChain_map]
        refine (ih (ht.sublist List.erase_sublist) (hlen x (Occurrence.mem_distinct.1 hx))).imp ?_
        intro u v huv
        rw [nextPermutation?, huv]
      · -- from one block to the next
        refine (isChain_distinct ht).imp ?_
        rintro x y ⟨hx, hy, hxy, hnext⟩ u hu v hv
        rw [List.getLast?_map,
          getLast?_rearrangementsOf (ht.sublist List.erase_sublist) (hlen x hx)] at hu
        rw [List.head?_map,
          head?_rearrangementsOf (ht.sublist List.erase_sublist) (hlen y hy)] at hv
        obtain rfl : x :: (t.erase x).reverse = u := by simpa using hu
        obtain rfl : y :: t.erase y = v := by simpa using hv
        exact nextPermutation?_carry ht hx hy hxy hnext
    · intro h
      obtain ⟨x, hx, hnil⟩ := List.mem_map.1 h
      exact rearrangementsOf_ne_nil (hlen x (Occurrence.mem_distinct.1 hx)) (List.map_eq_nil_iff.1 hnil)

end Sorted

/-! ### The size of the orbit -/

/-- The number of rearrangements that give the same tuple again. -/
def stabilizer (s : Finset Nat) (t : List Nat) : Nat := ∏ x ∈ s, (t.count x).factorial

theorem stabilizer_pos (s : Finset Nat) (t : List Nat) : 0 < stabilizer s t :=
  Finset.prod_pos fun _ _ => Nat.factorial_pos _

theorem stabilizer_cons {s : Finset Nat} {t : List Nat} {x : Nat} (hx : x ∈ s) :
    stabilizer s (x :: t) = (t.count x + 1) * stabilizer s t := by
  have hrest : ∏ y ∈ s.erase x, ((x :: t).count y).factorial = ∏ y ∈ s.erase x, (t.count y).factorial := by
    refine Finset.prod_congr rfl fun y hy => ?_
    rw [List.count_cons_of_ne (Finset.ne_of_mem_erase hy).symm]
  rw [stabilizer, stabilizer, ← Finset.mul_prod_erase s _ hx, ← Finset.mul_prod_erase s _ hx, hrest,
    List.count_cons_self, Nat.factorial_succ, mul_assoc]

theorem stabilizer_perm {s : Finset Nat} {t u : List Nat} (h : t.Perm u) :
    stabilizer s t = stabilizer s u :=
  Finset.prod_congr rfl fun x _ => by rw [h.count_eq x]

theorem length_rearrangementsOf_mul {n : Nat} {t : List Nat} (hn : n = t.length) {s : Finset Nat}
    (hs : ∀ x ∈ t, x ∈ s) : (rearrangementsOf n t).length * stabilizer s t = n.factorial := by
  induction n generalizing t with
  | zero =>
    rw [List.length_eq_zero_iff.1 hn.symm]
    simp [rearrangementsOf, stabilizer]
  | succ n ih =>
    have hterm : ∀ x ∈ t.toFinset, (rearrangementsOf n (t.erase x)).length * stabilizer s t =
        t.count x * n.factorial := by
      intro x hx
      have hx : x ∈ t := List.mem_toFinset.1 hx
      have hpos : 0 < t.count x := List.count_pos_iff.2 hx
      rw [stabilizer_perm (List.perm_cons_erase hx), stabilizer_cons (hs x hx), List.count_erase_self,
        Nat.sub_add_cancel hpos, mul_left_comm,
        ih (by rw [List.length_erase_of_mem hx]; omega) fun y hy => hs y (List.mem_of_mem_erase hy)]
    have hsame : (Occurrence.distinct t).toFinset = t.toFinset := by ext x; simp
    calc (rearrangementsOf (n + 1) t).length * stabilizer s t
        = (∑ x ∈ t.toFinset, (rearrangementsOf n (t.erase x)).length) * stabilizer s t := by
          rw [rearrangementsOf, List.length_flatMap, ← hsame,
            List.sum_toFinset _ (Occurrence.nodup_distinct t)]
          simp
      _ = ∑ x ∈ t.toFinset, t.count x * n.factorial := by
          rw [Finset.sum_mul]
          exact Finset.sum_congr rfl hterm
      _ = (n + 1).factorial := by
          rw [← Finset.sum_mul, List.sum_toFinset_count_eq_length, ← hn, Nat.factorial_succ]

theorem length_rearrangements_mul {t : List Nat} {s : Finset Nat} (hs : ∀ x ∈ t, x ∈ s) :
    (rearrangements t).length * stabilizer s t = t.length.factorial :=
  length_rearrangementsOf_mul rfl hs

theorem length_rearrangements_perm {t u : List Nat} (h : t.Perm u) :
    (rearrangements t).length = (rearrangements u).length := by
  have ht := length_rearrangements_mul (t := t) (s := t.toFinset) fun x hx => List.mem_toFinset.2 hx
  have hu := length_rearrangements_mul (t := u) (s := t.toFinset) fun x hx =>
    List.mem_toFinset.2 (h.mem_iff.2 hx)
  rw [← stabilizer_perm h, ← h.length_eq, ← ht] at hu
  exact (Nat.eq_of_mul_eq_mul_right (stabilizer_pos _ _) hu).symm

/-- One entry more: the step of the count. -/
theorem length_rearrangements_cons (x : Nat) (t : List Nat) :
    (rearrangements (x :: t)).length * (t.count x + 1) = (rearrangements t).length * (t.length + 1) := by
  have hs : ∀ y ∈ x :: t, y ∈ (x :: t).toFinset := fun y hy => List.mem_toFinset.2 hy
  have hcons := length_rearrangements_mul hs
  have htail := length_rearrangements_mul (t := t) fun y hy => hs y (by simp [hy])
  rw [stabilizer_cons (by simp), ← mul_assoc, List.length_cons, Nat.factorial_succ, ← htail,
    mul_left_comm, ← mul_assoc] at hcons
  exact (Nat.eq_of_mul_eq_mul_right (stabilizer_pos _ _) hcons).trans (by ring)

theorem length_rearrangements_le (t : List Nat) : (rearrangements t).length ≤ t.length.factorial := by
  rw [← length_rearrangements_mul fun x hx => List.mem_toFinset.2 hx]
  exact Nat.le_mul_of_pos_right _ (stabilizer_pos _ _)

/-- The count after the sorted entries `p`, the last of which is `last`, takes up the entry `x`. -/
theorem orbitSizeFrom_cons {p t : List Nat} {last x : Nat} (hp : ∀ z ∈ p, z ≤ last) (hx : last ≤ x) :
    orbitSizeFrom p.length (rearrangements p).length (p.count last) last (x :: t) =
      (do let _ ← Count.mul (rearrangements p).length (p.length + 1)
          orbitSizeFrom (x :: p).length (rearrangements (x :: p)).length ((x :: p).count x) x t) := by
  have hrun : (if x = last then p.count last + 1 else 1) = (x :: p).count x := by
    rw [List.count_cons_self]
    split
    · next h => rw [h]
    · next h =>
      rw [List.count_eq_zero_of_not_mem fun hmem => h (le_antisymm (hp x hmem) hx)]
  rw [orbitSizeFrom, hrun]
  cases hmul : Count.mul (rearrangements p).length (p.length + 1) with
  | error e => rfl
  | ok product =>
    obtain ⟨-, rfl⟩ := Count.mul_eq_ok.1 hmul
    simp only [ok_bind, List.length_cons]
    rw [← length_rearrangements_cons x p, List.count_cons_self, Nat.mul_div_cancel _ (Nat.succ_pos _)]

theorem le_of_mem_cons {p : List Nat} {last x : Nat} (hp : ∀ z ∈ p, z ≤ last) (hx : last ≤ x) :
    ∀ z ∈ x :: p, z ≤ x := by
  intro z hz
  rcases List.mem_cons.1 hz with rfl | hz
  · exact le_rfl
  · exact (hp z hz).trans hx

/-- The count after the sorted entries `p`, the last of which is `last`, goes on over the entries `t`. -/
theorem orbitSizeFrom_eq {p t : List Nat} {last : Nat} (hp : ∀ z ∈ p, z ≤ last)
    (hsorted : (last :: t).Pairwise (· ≤ ·)) (hsmall : (p.length + t.length).factorial < Count.limit) :
    orbitSizeFrom p.length (rearrangements p).length (p.count last) last t =
      .ok (rearrangements (t.reverse ++ p)).length := by
  induction t generalizing p last with
  | nil => rfl
  | cons x t ih =>
    rw [List.pairwise_cons] at hsorted
    have hx : last ≤ x := hsorted.1 x (by simp)
    have hle : (rearrangements p).length * (p.length + 1) ≤ (p.length + (x :: t).length).factorial :=
      calc (rearrangements p).length * (p.length + 1)
          ≤ p.length.factorial * (p.length + 1) := Nat.mul_le_mul_right _ (length_rearrangements_le p)
        _ = (p.length + 1).factorial := by rw [Nat.factorial_succ, mul_comm]
        _ ≤ _ := Nat.factorial_le (by simp)
    have hlen : (x :: p).length + t.length = p.length + (x :: t).length := by simp; omega
    rw [orbitSizeFrom_cons hp hx, Count.mul_of_lt (lt_of_le_of_lt hle hsmall), ok_bind,
      ih (le_of_mem_cons hp hx) hsorted.2 (hlen ▸ hsmall)]
    simp

/-- If no product is too large, the count is right, however many rearrangements there are. -/
theorem orbitSizeFrom_eq_ok {p t : List Nat} {last n : Nat} (hp : ∀ z ∈ p, z ≤ last)
    (hsorted : (last :: t).Pairwise (· ≤ ·))
    (h : orbitSizeFrom p.length (rearrangements p).length (p.count last) last t = .ok n) :
    n = (rearrangements (t.reverse ++ p)).length := by
  induction t generalizing p last with
  | nil =>
    cases h
    rfl
  | cons x t ih =>
    rw [List.pairwise_cons] at hsorted
    have hx : last ≤ x := hsorted.1 x (by simp)
    rw [orbitSizeFrom_cons hp hx] at h
    obtain ⟨product, -, h⟩ := bind_eq_ok.1 h
    rw [ih (le_of_mem_cons hp hx) hsorted.2 h]
    simp

/-- The first entry starts the count. -/
theorem orbitSize_cons (x : Nat) (t : List Nat) :
    orbitSize (x :: t) = orbitSizeFrom [x].length (rearrangements [x]).length ([x].count x) x t := by
  have hone : (rearrangements [x]).length = 1 := by
    simp [rearrangements, rearrangementsOf, Occurrence.distinct_cons]
  rw [orbitSize, hone, List.count_singleton_self, List.length_singleton]

theorem length_rearrangements_reverse_append (x : Nat) (t : List Nat) :
    (rearrangements (t.reverse ++ [x])).length = (rearrangements (x :: t)).length :=
  length_rearrangements_perm (List.perm_append_comm.trans ((List.reverse_perm t).cons x))

theorem orbitSize_eq {t : List Nat} (ht : t.Pairwise (· ≤ ·)) (hsmall : t.length.factorial < Count.limit) :
    orbitSize t = .ok (rearrangements t).length := by
  cases t with
  | nil => rfl
  | cons x t =>
    have h := orbitSizeFrom_eq (p := [x]) (by simp) ht (by simpa [Nat.add_comm] using hsmall)
    rw [orbitSize_cons, h, length_rearrangements_reverse_append]

theorem orbitSize_eq_ok {t : List Nat} (ht : t.Pairwise (· ≤ ·)) {n : Nat} (h : orbitSize t = .ok n) :
    n = (rearrangements t).length := by
  cases t with
  | nil =>
    cases h
    rfl
  | cons x t =>
    rw [orbitSize_cons] at h
    rw [orbitSizeFrom_eq_ok (by simp) ht h, length_rearrangements_reverse_append]

/-! ### The loop over the orbit -/

theorem foldRearrangements_of_isChain {β : Type} (f : β → List Nat → Checked β) {n : Nat}
    {t : List Nat} {ts : List (List Nat)} (b : β)
    (hchain : (t :: ts).IsChain fun u v => nextPermutation? u = some v)
    (hlast : ∀ u ∈ (t :: ts).getLast?, nextPermutation? u = none) (hn : ts.length < n) :
    foldRearrangements f n t b = (t :: ts).foldlM f b := by
  induction ts generalizing n t b with
  | nil =>
    obtain ⟨n, rfl⟩ : ∃ k, n = k + 1 := ⟨n - 1, by simp at hn; omega⟩
    have hnone := hlast t (by simp)
    rw [foldRearrangements]
    simp only [hnone]
    rfl
  | cons u us ih =>
    obtain ⟨n, rfl⟩ : ∃ k, n = k + 1 := ⟨n - 1, by simp at hn; omega⟩
    rw [List.isChain_cons] at hchain
    have hnext := hchain.1 u (by simp)
    rw [foldRearrangements, List.foldlM_cons]
    simp only [hnext]
    congr 1
    funext b'
    exact ih b' hchain.2 (fun v hv => hlast v (by simpa using hv)) (by simp at hn; omega)

/-- The loop over the orbit of a sorted tuple is a fold over its rearrangements. -/
theorem foldRearrangements_eq {β : Type} (f : β → List Nat → Checked β) {t : List Nat}
    (ht : t.Pairwise (· ≤ ·)) (b : β) :
    foldRearrangements f (rearrangements t).length t b = (rearrangements t).foldlM f b := by
  have hhead := head?_rearrangementsOf ht rfl
  have hlast := getLast?_rearrangementsOf ht rfl
  have hchain := isChain_rearrangementsOf ht rfl
  rw [rearrangements]
  cases hlist : rearrangementsOf t.length t with
  | nil => exact absurd hlist (rearrangementsOf_ne_nil rfl)
  | cons u us =>
    rw [hlist] at hhead hlast hchain
    obtain rfl : u = t := by simpa using hhead
    refine foldRearrangements_of_isChain f b hchain (fun v hv => ?_) (by simp)
    obtain rfl : u.reverse = v := by simpa [hlast] using hv
    exact nextPermutation?_descending (List.pairwise_reverse.2 ht)

end TensorCalculus.Power
