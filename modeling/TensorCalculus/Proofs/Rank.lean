import Mathlib.Data.List.Lex
import Mathlib.Data.Set.Function
import Mathlib.Order.Interval.Set.Defs
import TensorCalculus.Power.Tuple
import TensorCalculus.Proofs.Binomial

/-!
# Ranking canonical tuples

A canonical tuple of either kind is coded by a strictly increasing tuple: an exterior one is its own
code, the entry of a symmetric one at place `i` is moved up by `i`. In the combinatorial number system
the codes below `c` of length `k` are numbered by the numbers below `c.choose k`, the last entry
counting most. So tuples are read here from the last entry on (`Coded`, `codeRank`), and `unrank`,
which finds the last entry first, is the greedy choice in this system.
-/

namespace TensorCalculus.PowerKind
variable {kind : PowerKind}

/-- What codes the entry `a` at place `i`. -/
def code (kind : PowerKind) (i a : Nat) : Nat :=
  match kind with
  | .symmetric => a + i
  | .exterior => a

/-- One more than the largest code of a tuple of degree `degree` with entries below `dim`. -/
def codeBound (kind : PowerKind) (dim degree : Nat) : Nat :=
  match kind with
  | .symmetric => dim + degree - 1
  | .exterior => dim

/-- The tuples that number the components of a power of a space of dimension `dim`. -/
structure IsCanonical (kind : PowerKind) (dim degree : Nat) (tuple : List Nat) : Prop where
  length : tuple.length = degree
  below : ∀ a ∈ tuple, a < dim
  sorted : match kind with
    | .symmetric => tuple.Pairwise (· ≤ ·)
    | .exterior => tuple.Pairwise (· < ·)

/-- Read from the last entry on, the codes of the tuple strictly decrease from below `bound`. -/
def Coded (kind : PowerKind) (bound : Nat) : List Nat → Prop
  | [] => True
  | a :: rest => kind.code rest.length a < bound ∧ kind.Coded (kind.code rest.length a) rest

/-- The number of the tuple, read from the last entry on. -/
def codeRank (kind : PowerKind) : List Nat → Nat
  | [] => 0
  | a :: rest => (kind.code rest.length a).choose (rest.length + 1) + kind.codeRank rest

/-! ### The number system -/

/-- Strictly decreasing codes leave room for the places after them. -/
theorem Coded.length_le {c : Nat} : ∀ {rev : List Nat}, kind.Coded c rev → rev.length ≤ c
  | [], _ => Nat.zero_le _
  | _ :: _, ⟨ha, hrest⟩ => by
    have := hrest.length_le
    simp only [List.length_cons]
    omega

theorem codeRank_lt {c : Nat} : ∀ {rev : List Nat}, kind.Coded c rev →
    kind.codeRank rev < c.choose rev.length
  | [], _ => by simp [codeRank]
  | a :: rest, ⟨ha, hrest⟩ => by
    have hlt := codeRank_lt hrest
    calc kind.codeRank (a :: rest)
        = (kind.code rest.length a).choose (rest.length + 1) + kind.codeRank rest := rfl
      _ < (kind.code rest.length a).choose (rest.length + 1) +
            (kind.code rest.length a).choose rest.length := by omega
      _ = (kind.code rest.length a + 1).choose (rest.length + 1) := by
        rw [Nat.choose_succ_succ', Nat.add_comm]
      _ ≤ c.choose (rest.length + 1) := Nat.choose_le_choose _ ha

theorem code_lt_code {i a b : Nat} : kind.code i a < kind.code i b ↔ a < b := by
  cases kind <;> simp [code]

/-- The numbering grows with the tuple, the last entry deciding first. -/
theorem codeRank_lt_codeRank {c : Nat} : ∀ {rev rev' : List Nat}, kind.Coded c rev →
    rev.length = rev'.length → List.Lex (· < ·) rev rev' →
    kind.codeRank rev < kind.codeRank rev'
  | _, _, _, hlen, .nil => by simp at hlen
  | a :: rest, b :: rest', ⟨_, hrest⟩, hlen, .rel hab => by
    have hlen' : rest.length = rest'.length := by simpa using hlen
    have ha : kind.Coded (kind.code rest.length a + 1) (a :: rest) := ⟨Nat.lt_succ_self _, hrest⟩
    have hlt : kind.codeRank (a :: rest) < (kind.code rest.length a + 1).choose (rest.length + 1) :=
      codeRank_lt ha
    have hcode : kind.code rest.length a + 1 ≤ kind.code rest'.length b := by
      rw [hlen']
      exact code_lt_code.2 hab
    have hle := Nat.choose_le_choose (rest.length + 1) hcode
    simp only [codeRank, ← hlen'] at hlt hle ⊢
    omega
  | a :: rest, _ :: rest', ⟨_, hrest⟩, hlen, .cons hlex => by
    have hlen' : rest.length = rest'.length := by simpa using hlen
    have hlt := codeRank_lt_codeRank hrest hlen' hlex
    simp only [codeRank, ← hlen']
    omega

/-! ### Canonical tuples and their codes -/

theorem coded_exterior {c : Nat} {rev : List Nat} :
    PowerKind.exterior.Coded c rev ↔ (∀ a ∈ rev, a < c) ∧ rev.Pairwise (fun a b => b < a) := by
  induction rev generalizing c with
  | nil => simp [Coded]
  | cons a rest ih =>
    simp only [Coded, code, ih, List.forall_mem_cons, List.pairwise_cons]
    constructor
    · rintro ⟨ha, hlt, hsorted⟩
      exact ⟨⟨ha, fun b hb => (hlt b hb).trans ha⟩, hlt, hsorted⟩
    · rintro ⟨⟨ha, _⟩, hlt, hsorted⟩
      exact ⟨ha, hlt, hsorted⟩

theorem coded_symmetric {c : Nat} {rev : List Nat} :
    PowerKind.symmetric.Coded (c + rev.length) rev ↔
      (∀ a ∈ rev, a ≤ c) ∧ rev.Pairwise (fun a b => b ≤ a) := by
  induction rev generalizing c with
  | nil => simp [Coded]
  | cons a rest ih =>
    simp only [Coded, code, ih, List.length_cons, List.forall_mem_cons, List.pairwise_cons]
    constructor
    · rintro ⟨ha, hle, hsorted⟩
      have hac : a ≤ c := by omega
      exact ⟨⟨hac, fun b hb => (hle b hb).trans hac⟩, hle, hsorted⟩
    · rintro ⟨⟨ha, _⟩, hle, hsorted⟩
      exact ⟨by omega, hle, hsorted⟩

theorem Coded.sorted {c : Nat} : ∀ {rev : List Nat}, kind.Coded c rev → rev.Pairwise (fun a b => b ≤ a)
  | [], _ => .nil
  | a :: rest, ⟨_, hrest⟩ => by
    rw [List.pairwise_cons]
    cases kind with
    | symmetric => exact coded_symmetric.1 hrest
    | exterior =>
      obtain ⟨hlt, hsorted⟩ := coded_exterior.1 hrest
      exact ⟨fun b hb => (hlt b hb).le, hsorted.imp Nat.le_of_lt⟩

theorem isCanonical_iff {dim degree : Nat} {tuple : List Nat} :
    kind.IsCanonical dim degree tuple ↔
      tuple.length = degree ∧ kind.Coded (kind.codeBound dim degree) tuple.reverse := by
  cases kind with
  | exterior =>
    rw [coded_exterior]
    simp only [List.mem_reverse, List.pairwise_reverse, codeBound]
    exact ⟨fun ⟨h1, h2, h3⟩ => ⟨h1, h2, h3⟩, fun ⟨h1, h2, h3⟩ => ⟨h1, h2, h3⟩⟩
  | symmetric =>
    rcases Nat.eq_zero_or_pos dim with rfl | hdim
    · -- without dimensions there is only the empty tuple
      cases tuple with
      | nil => exact ⟨fun h => ⟨h.length, trivial⟩, fun h => ⟨h.1, by simp, List.Pairwise.nil⟩⟩
      | cons a rest =>
        refine ⟨fun h => absurd (h.below a (by simp)) (by omega), fun ⟨hlen, h⟩ => ?_⟩
        have := h.length_le
        simp only [codeBound, List.length_reverse] at this hlen
        simp only [List.length_cons] at this hlen
        omega
    · obtain ⟨n, rfl⟩ := Nat.exists_eq_add_of_lt hdim
      have hbelow : (∀ a ∈ tuple, a < 0 + n + 1) ↔ ∀ a ∈ tuple, a ≤ n := by
        simp only [Nat.zero_add, Nat.lt_succ_iff]
      have hcoded (hlen : tuple.length = degree) :
          PowerKind.symmetric.Coded (codeBound .symmetric (0 + n + 1) degree) tuple.reverse ↔
            (∀ a ∈ tuple, a ≤ n) ∧ tuple.Pairwise (· ≤ ·) := by
        have hbound : codeBound .symmetric (0 + n + 1) degree = n + tuple.reverse.length := by
          simp only [codeBound, List.length_reverse]
          omega
        rw [hbound, coded_symmetric]
        simp [List.pairwise_reverse]
      constructor
      · rintro ⟨h1, h2, h3⟩
        exact ⟨h1, (hcoded h1).2 ⟨hbelow.1 h2, h3⟩⟩
      · rintro ⟨h1, h2⟩
        exact ⟨h1, hbelow.2 ((hcoded h1).1 h2).1, ((hcoded h1).1 h2).2⟩

/-- The dimension is the number of codes, and no product on the way to it was too large. -/
theorem dimension_eq_ok {dim degree d : Nat} (h : kind.dimension dim degree = .ok d) :
    d = (kind.codeBound dim degree).choose degree ∧
      Power.peak (kind.codeBound dim degree) degree < Count.limit := by
  cases kind with
  | exterior =>
    obtain ⟨hpeak, hd⟩ := Power.binomial_eq_ok.1 h
    exact ⟨hd.symm, hpeak⟩
  | symmetric =>
    unfold dimension at h
    simp only at h
    split at h
    · next h0 =>
      subst h0
      simp only [Except.ok.injEq] at h
      refine ⟨by simp [← h], ?_⟩
      simp only [Power.peak, Nat.zero_min, Nat.zero_mul]
      decide
    · obtain ⟨n, hn, hb⟩ := bind_eq_ok.1 h
      obtain ⟨-, rfl⟩ := Count.add_eq_ok.1 hn
      obtain ⟨hpeak, hd⟩ := Power.binomial_eq_ok.1 hb
      exact ⟨hd.symm, hpeak⟩

/-! ### Ranking -/

theorem entryRank_eq {i a : Nat} (hcode : kind.code i a < Count.limit)
    (hpeak : Power.peak (kind.code i a) (i + 1) < Count.limit) :
    kind.entryRank i a = .ok ((kind.code i a).choose (i + 1)) := by
  cases kind with
  | exterior => exact Power.binomial_of_peak hpeak
  | symmetric =>
    simp only [entryRank]
    rw [Count.add_of_lt hcode]
    exact Power.binomial_of_peak hpeak

theorem rankFrom_append (i acc a : Nat) (tuple : List Nat) :
    kind.rankFrom i acc (tuple ++ [a]) = (do
      Count.add (← kind.rankFrom i acc tuple) (← kind.entryRank (i + tuple.length) a)) := by
  induction tuple generalizing i acc with
  | nil =>
    simp only [List.nil_append, rankFrom, ok_bind, List.length_nil, Nat.add_zero]
    cases kind.entryRank i a with
    | error e => rfl
    | ok x =>
      simp only [ok_bind]
      cases Count.add acc x <;> rfl
  | cons b rest ih =>
    simp only [List.cons_append, rankFrom, List.length_cons]
    cases kind.entryRank i b with
    | error e => rfl
    | ok x =>
      simp only [ok_bind]
      cases Count.add acc x with
      | error e => rfl
      | ok y =>
        simp only [ok_bind]
        rw [ih, show i + 1 + rest.length = i + (rest.length + 1) by omega]

/-- Below a bound whose coefficient is computed without overflow, ranking does not overflow. -/
theorem rank_reverse {c k : Nat} (hc : c ≤ Count.limit) (hpeak : Power.peak c k < Count.limit)
    (hcount : c.choose k < Count.limit) {rev : List Nat} (hk : k = rev.length) (h : kind.Coded c rev) :
    kind.rank rev.reverse = .ok (kind.codeRank rev) := by
  induction rev generalizing c k with
  | nil => rfl
  | cons a rest ih =>
    obtain ⟨ha, hrest⟩ := h
    subst hk
    have hlen := hrest.length_le
    have hlt : kind.codeRank (a :: rest) < c.choose (rest.length + 1) :=
      codeRank_lt (show kind.Coded c (a :: rest) from ⟨ha, hrest⟩)
    have hpeak' : Power.peak (kind.code rest.length a) rest.length < Count.limit :=
      (Power.peak_le_peak (by simp) (by simp only [List.length_cons]; omega)).trans_lt hpeak
    have hchoose : (kind.code rest.length a).choose rest.length ≤ c.choose (rest.length + 1) := by
      calc (kind.code rest.length a).choose rest.length
          ≤ (kind.code rest.length a + 1).choose (rest.length + 1) := by
            rw [Nat.choose_succ_succ']; omega
        _ ≤ c.choose (rest.length + 1) := Nat.choose_le_choose _ ha
    have hrank := ih (by omega) hpeak' (by simp only [List.length_cons] at hcount; omega) rfl hrest
    have hentry : kind.entryRank rest.length a =
        .ok ((kind.code rest.length a).choose (rest.length + 1)) :=
      entryRank_eq (by omega)
        ((Power.peak_le_peak (by simp) (by simp only [List.length_cons]; omega)).trans_lt hpeak)
    have hrank' : kind.rankFrom 0 0 rest.reverse = .ok (kind.codeRank rest) := hrank
    show kind.rankFrom 0 0 (a :: rest).reverse = _
    rw [List.reverse_cons, rankFrom_append, hrank', ok_bind, List.length_reverse, Nat.zero_add, hentry,
      ok_bind, Count.add_eq_ok, Nat.add_comm]
    exact ⟨hlt.trans hcount, rfl⟩

/-! ### Unranking -/

/-- What the search finds: it stopped because the next coefficient is too large. -/
theorem largestFrom_spec {k r b b' : Nat} (h : largestFrom k r b = .ok b') (hb : b.choose k ≤ r) :
    b'.choose k ≤ r ∧ r < (b' + 1).choose k := by
  fun_induction largestFrom k r b with
  | case1 b _ above habove hle ih =>
    obtain ⟨-, rfl⟩ := Power.binomial_eq_ok.1 habove
    exact ih h hle
  | case2 b _ above habove hlt =>
    obtain ⟨-, rfl⟩ := Power.binomial_eq_ok.1 habove
    cases h
    exact ⟨hb, by omega⟩
  | case3 => cases h
  | case4 => cases h

/-- The search ends below the first bound whose coefficient is too large. -/
theorem largestFrom_ok {k r c b : Nat} (hc : c < Count.limit) (hpeak : Power.peak c k < Count.limit)
    (hr : r < c.choose k) (hb : b < c) : ∃ b', largestFrom k r b = .ok b' := by
  fun_induction largestFrom k r b with
  | case1 b _ above habove hle ih =>
    obtain ⟨-, rfl⟩ := Power.binomial_eq_ok.1 habove
    refine ih (lt_of_le_of_ne hb ?_)
    rintro rfl
    omega
  | case2 b => exact ⟨b, rfl⟩
  | case3 b _ fault hfault =>
    have hle : Power.peak (b + 1) k ≤ Power.peak c k := Power.peak_le_peak le_rfl (by omega)
    rw [Power.binomial_of_peak (by omega)] at hfault
    cases hfault
  | case4 b hlimit => omega

/-- The greedy choice for the last place: its code lies below the bound, and what is left of the rank
is below the number of codes under it. -/
theorem largestFrom_bounds {c i r b : Nat} (h : largestFrom (i + 1) r i = .ok b)
    (hr : r < c.choose (i + 1)) :
    i ≤ b ∧ b < c ∧ b.choose (i + 1) ≤ r ∧ r - b.choose (i + 1) < b.choose i := by
  obtain ⟨hle, hlt⟩ := largestFrom_spec h (by simp)
  refine ⟨?_, ?_, hle, ?_⟩
  · by_contra hcon
    rw [Nat.choose_eq_zero_of_lt (by omega)] at hlt
    omega
  · by_contra hcon
    have := Nat.choose_le_choose (i + 1) (show c ≤ b by omega)
    omega
  · rw [Nat.choose_succ_succ'] at hlt
    omega

theorem entryAt_ok {i b : Nat} (hb : i ≤ b) :
    ∃ a, kind.entryAt i b = .ok a ∧ kind.code i a = b := by
  cases kind with
  | exterior => exact ⟨b, rfl, rfl⟩
  | symmetric => exact ⟨b - i, Count.sub_eq_ok.2 ⟨hb, rfl⟩, Nat.sub_add_cancel hb⟩

theorem unrankOnto_spec {c k r : Nat} {tail res : List Nat} (hr : r < c.choose k)
    (h : kind.unrankOnto k r tail = .ok res) :
    ∃ rev, res = rev.reverse ++ tail ∧ rev.length = k ∧ kind.Coded c rev ∧ kind.codeRank rev = r := by
  induction k generalizing c r tail with
  | zero =>
    cases h
    refine ⟨[], rfl, rfl, trivial, ?_⟩
    simp only [Nat.choose_zero_right] at hr
    simp only [codeRank]
    omega
  | succ i ih =>
    rw [unrankOnto] at h
    obtain ⟨b, hb, h⟩ := bind_eq_ok.1 h
    obtain ⟨hib, hbc, hle, hlt⟩ := largestFrom_bounds hb hr
    obtain ⟨x, hx, h⟩ := bind_eq_ok.1 h
    obtain ⟨-, rfl⟩ := Power.binomial_eq_ok.1 hx
    obtain ⟨rest, hrest, h⟩ := bind_eq_ok.1 h
    obtain ⟨-, rfl⟩ := Count.sub_eq_ok.1 hrest
    obtain ⟨a, ha, hcode⟩ : ∃ a, kind.entryAt i b = .ok a ∧ kind.code i a = b := entryAt_ok hib
    rw [ha, ok_bind] at h
    obtain ⟨rev, rfl, rfl, hrev, hsum⟩ := ih hlt h
    refine ⟨a :: rev, by simp, rfl, ⟨hcode ▸ hbc, hcode ▸ hrev⟩, ?_⟩
    simp only [codeRank, hcode]
    omega

/-- Whatever the rank, the tuple found is sorted. -/
theorem sorted_of_unrank {degree r : Nat} {tuple : List Nat} (h : kind.unrank degree r = .ok tuple) :
    tuple.length = degree ∧ tuple.Pairwise (· ≤ ·) := by
  rcases Nat.eq_zero_or_pos degree with rfl | hpos
  · cases h
    exact ⟨rfl, .nil⟩
  · have hr : r < (r + degree).choose degree := by
      have : r + degree + 1 - degree ≤ (r + degree).choose degree := Power.le_choose hpos
      omega
    obtain ⟨rev, rfl, hlen, hcoded, -⟩ := unrankOnto_spec hr h
    rw [List.append_nil, List.pairwise_reverse]
    exact ⟨by simpa using hlen, hcoded.sorted⟩

theorem unrankOnto_ok {c k r : Nat} (tail : List Nat) (hc : c < Count.limit)
    (hpeak : Power.peak c k < Count.limit) (hr : r < c.choose k) :
    ∃ res, kind.unrankOnto k r tail = .ok res := by
  induction k generalizing c r tail with
  | zero => exact ⟨tail, rfl⟩
  | succ i ih =>
    have hic : i < c := by
      by_contra hcon
      rw [Nat.choose_eq_zero_of_lt (by omega)] at hr
      omega
    obtain ⟨b, hb⟩ := largestFrom_ok hc hpeak hr hic
    obtain ⟨hib, hbc, hle, hlt⟩ := largestFrom_bounds hb hr
    have hpeakb : Power.peak b (i + 1) < Count.limit :=
      (Power.peak_le_peak le_rfl (by omega)).trans_lt hpeak
    have hpeak' : Power.peak b i < Count.limit :=
      (Power.peak_le_peak (by omega) (by omega)).trans_lt hpeak
    obtain ⟨a, ha, -⟩ : ∃ a, kind.entryAt i b = .ok a ∧ kind.code i a = b := entryAt_ok hib
    rw [unrankOnto, hb, ok_bind, Power.binomial_of_peak hpeakb, ok_bind,
      Count.sub_eq_ok.2 ⟨hle, rfl⟩, ok_bind, ha, ok_bind]
    exact ih (a :: tail) (by omega) hpeak' hlt

/-! ### The correspondence -/

section Correspondence
variable {dim degree d : Nat}

theorem codeBound_lt (hdegree : degree < Count.limit) (hpos : 0 < degree)
    (hpeak : Power.peak (kind.codeBound dim degree) degree < Count.limit) :
    kind.codeBound dim degree < Count.limit := by
  by_cases h : degree < kind.codeBound dim degree
  · exact (Power.le_peak hpos h).trans_lt hpeak
  · omega

theorem rank_of_isCanonical (hdegree : degree < Count.limit) (hd : kind.dimension dim degree = .ok d)
    {tuple : List Nat} (h : kind.IsCanonical dim degree tuple) :
    kind.rank tuple = .ok (kind.codeRank tuple.reverse) ∧ kind.codeRank tuple.reverse < d := by
  obtain ⟨hlen, hcoded⟩ := isCanonical_iff.1 h
  obtain ⟨rfl, hpeak⟩ := dimension_eq_ok hd
  have hrev : tuple.reverse.length = degree := by rw [List.length_reverse, hlen]
  have hlt := codeRank_lt hcoded
  rw [hrev] at hlt
  refine ⟨?_, hlt⟩
  rcases Nat.eq_zero_or_pos degree with rfl | hpos
  · rw [List.length_eq_zero_iff.1 hlen]
    rfl
  · have hrank := rank_reverse (codeBound_lt hdegree hpos hpeak).le hpeak
      (Power.choose_lt_limit hpeak) hrev.symm hcoded
    rwa [List.reverse_reverse] at hrank

theorem unrank_of_lt (hdegree : degree < Count.limit) (hd : kind.dimension dim degree = .ok d)
    {r : Nat} (hr : r < d) :
    ∃ tuple, kind.unrank degree r = .ok tuple ∧ kind.IsCanonical dim degree tuple ∧
      kind.codeRank tuple.reverse = r := by
  obtain ⟨rfl, hpeak⟩ := dimension_eq_ok hd
  have hok : ∃ res, kind.unrankOnto degree r [] = .ok res := by
    rcases Nat.eq_zero_or_pos degree with rfl | hpos
    · exact ⟨[], rfl⟩
    · exact unrankOnto_ok [] (codeBound_lt hdegree hpos hpeak) hpeak hr
  obtain ⟨res, hres⟩ := hok
  obtain ⟨rev, rfl, hlen, hcoded, hrank⟩ := unrankOnto_spec hr hres
  rw [List.append_nil] at hres
  refine ⟨rev.reverse, hres, isCanonical_iff.2 ⟨by simpa using hlen, ?_⟩, ?_⟩
  · rwa [List.reverse_reverse]
  · rwa [List.reverse_reverse]

/-- The colexicographic order of tuples of one length: the last entry in which they differ decides. -/
def Colex (t u : List Nat) : Prop := List.Lex (· < ·) t.reverse u.reverse

theorem codeRank_lt_of_colex {t u : List Nat} (ht : kind.IsCanonical dim degree t)
    (hu : kind.IsCanonical dim degree u) (h : Colex t u) :
    kind.codeRank t.reverse < kind.codeRank u.reverse :=
  codeRank_lt_codeRank (isCanonical_iff.1 ht).2 (by simp [ht.length, hu.length]) h

theorem eq_of_codeRank_eq {t u : List Nat} (ht : kind.IsCanonical dim degree t)
    (hu : kind.IsCanonical dim degree u) (h : kind.codeRank t.reverse = kind.codeRank u.reverse) :
    t = u := by
  rcases trichotomous_of (List.Lex (· < ·)) t.reverse u.reverse with hlt | heq | hgt
  · have := codeRank_lt_of_colex ht hu hlt
    omega
  · exact List.reverse_injective heq
  · have := codeRank_lt_of_colex hu ht hgt
    omega

/-- Ranking numbers the canonical tuples from `0` to the dimension in colexicographic order, unranking
finds the tuple of a number, and neither leaves the range of counts. -/
theorem rank_unrank_correspond (kind : PowerKind) (hdegree : degree < Count.limit)
    (hd : kind.dimension dim degree = .ok d) :
    Set.BijOn kind.rank {t | kind.IsCanonical dim degree t} (Except.ok '' Set.Iio d) ∧
    (∀ t u, kind.IsCanonical dim degree t → kind.IsCanonical dim degree u → Colex t u →
      ∃ r s, kind.rank t = .ok r ∧ kind.rank u = .ok s ∧ r < s) ∧
    ∀ r < d, ∃ t, kind.unrank degree r = .ok t ∧ kind.IsCanonical dim degree t ∧
      kind.rank t = .ok r ∧ ∀ u, kind.IsCanonical dim degree u → kind.rank u = .ok r → u = t := by
  have hrank : ∀ t, kind.IsCanonical dim degree t →
      kind.rank t = .ok (kind.codeRank t.reverse) ∧ kind.codeRank t.reverse < d :=
    fun t ht => rank_of_isCanonical hdegree hd ht
  have hinj : ∀ t u, kind.IsCanonical dim degree t → kind.IsCanonical dim degree u →
      kind.rank t = kind.rank u → t = u := by
    intro t u ht hu h
    rw [(hrank t ht).1, (hrank u hu).1] at h
    exact eq_of_codeRank_eq ht hu (Except.ok.inj h)
  have hunrank : ∀ r < d, ∃ t, kind.unrank degree r = .ok t ∧ kind.IsCanonical dim degree t ∧
      kind.rank t = .ok r := by
    intro r hr
    obtain ⟨t, hunrank, ht, hcode⟩ := unrank_of_lt hdegree hd hr
    exact ⟨t, hunrank, ht, hcode ▸ (hrank t ht).1⟩
  refine ⟨⟨fun t ht => ?_, fun t ht u hu h => hinj t u ht hu h, ?_⟩, fun t u ht hu h => ?_, ?_⟩
  · exact ⟨_, (hrank t ht).2, (hrank t ht).1.symm⟩
  · rintro _ ⟨r, hr, rfl⟩
    obtain ⟨t, -, ht, hr⟩ := hunrank r hr
    exact ⟨t, ht, hr⟩
  · exact ⟨_, _, (hrank t ht).1, (hrank u hu).1, codeRank_lt_of_colex ht hu h⟩
  · intro r hr
    obtain ⟨t, hunrank, ht, hr⟩ := hunrank r hr
    exact ⟨t, hunrank, ht, hr, fun u hu h => hinj u t hu ht (h.trans hr.symm)⟩

/-- The twenty components of the third symmetric power of a space of four dimensions. -/
theorem rank_unrank_correspond_cubic :
    3 < Count.limit ∧ PowerKind.symmetric.dimension 4 3 = .ok 20 ∧
      Set.BijOn PowerKind.symmetric.rank {t | PowerKind.symmetric.IsCanonical 4 3 t}
        (Except.ok '' Set.Iio 20) :=
  ⟨by decide, rfl, (rank_unrank_correspond .symmetric (by decide) rfl).1⟩

end Correspondence

end TensorCalculus.PowerKind
