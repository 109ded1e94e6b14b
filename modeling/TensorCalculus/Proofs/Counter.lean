import Mathlib.Data.List.Induction
import TensorCalculus.Index.Odometer
import TensorCalculus.Proofs.Box

/-!
# The run of the counter

`Counted dims n o` says where a counter stands that was incremented `n` times since it was set up or
reset: at the multi-index of position `n`, counted round the box, and at the end if that is no less than the
size of the box. Incrementing and resetting keep this (`Counted.next`, `Counted.reset`), so it holds
after every sequence of moves (`counted_run`). A loop that visits a multi-index and increments until the
counter is at its end visits the rest of the box in row-major order (`Counted.walks`), and so does a fold
over the run (`Counted.foldM_eq`).
-/

namespace TensorCalculus.Odometer
variable {dims : List Nat} {n : Nat} {o last : Odometer}

theorem carry_multiIndex (h : ∀ d ∈ dims, 0 < d) (k : Nat) :
    carry dims (Box.multiIndex dims k) =
      (Box.multiIndex dims (k + 1), decide (Box.size dims ∣ k + 1)) := by
  induction dims with
  | nil => simp [carry, Box.multiIndex]
  | cons d ds ih =>
    have hds : ∀ e ∈ ds, 0 < e := fun e he => h e (by simp [he])
    have hd : 0 < d := h d (by simp)
    have hS := Box.size_pos hds
    rw [Box.multiIndex, carry, ih hds]
    by_cases hthrough : Box.size ds ∣ k + 1
    · -- the carry comes through the extents behind
      have hsucc : (k + 1) / Box.size ds = k / Box.size ds + 1 := Nat.succ_div_of_dvd hthrough
      have hdvd : Box.size (d :: ds) ∣ k + 1 ↔ d ∣ k / Box.size ds + 1 := by
        rw [Box.size_cons, ← hsucc, Nat.dvd_div_iff_mul_dvd hthrough, Nat.mul_comm]
      simp only [hthrough, decide_true, hdvd, Box.multiIndex, hsucc]
      by_cases hlast : k / Box.size ds % d + 1 < d
      · have hmod : (k / Box.size ds + 1) % d = k / Box.size ds % d + 1 := by
          rw [Nat.add_mod, Nat.mod_eq_of_lt (a := 1) (by omega), Nat.mod_eq_of_lt hlast]
        have hndvd : ¬ d ∣ k / Box.size ds + 1 := by
          rw [Nat.dvd_iff_mod_eq_zero, hmod]
          omega
        rw [if_pos hlast, hmod, decide_eq_false hndvd]
      · have hmod : (k / Box.size ds + 1) % d = 0 := by
          have := Nat.mod_lt (k / Box.size ds) hd
          rw [← Nat.mod_add_mod, show k / Box.size ds % d + 1 = d by omega, Nat.mod_self]
        rw [if_neg hlast, hmod, decide_eq_true (Nat.dvd_of_mod_eq_zero hmod)]
    · have hsucc : (k + 1) / Box.size ds = k / Box.size ds := Nat.succ_div_of_not_dvd hthrough
      have hndvd : ¬ Box.size (d :: ds) ∣ k + 1 := fun hdvd =>
        hthrough ((Nat.dvd_mul_left _ _).trans hdvd)
      simp only [hthrough, decide_false, Box.multiIndex, hsucc, decide_eq_false hndvd]

theorem next_multiIndex (h : ∀ d ∈ dims, 0 < d) (k : Nat) (done : Bool) :
    (⟨dims, Box.multiIndex dims k, done⟩ : Odometer).next =
      ⟨dims, Box.multiIndex dims (k + 1), done || decide (Box.size dims ∣ k + 1)⟩ := by
  simp only [next, carry_multiIndex h]

theorem position_eq (h : o.values.length = o.dims.length) : o.position = Box.position o.values o.dims := by
  have hfold : ∀ (vs ds : List Nat) (acc : Nat), vs.length = ds.length →
      (vs.zip ds).foldl (fun flat p => flat * p.2 + p.1) acc = acc * Box.size ds + Box.position vs ds := by
    intro vs
    induction vs with
    | nil =>
      intro ds acc hlength
      obtain rfl := List.length_eq_zero_iff.1 hlength.symm
      simp [Box.position]
    | cons v vs ih =>
      intro ds acc hlength
      cases ds with
      | nil => simp at hlength
      | cons d ds =>
        rw [List.zip_cons_cons, List.foldl_cons, ih ds _ (by simpa using hlength), Box.position, Box.size_cons]
        ring
  rw [position, hfold _ _ _ h, Nat.zero_mul, Nat.zero_add]

/-- The counter stands `n` increments behind the first multi-index. -/
structure Counted (dims : List Nat) (n : Nat) (o : Odometer) : Prop where
  dims_eq : o.dims = dims
  done_iff : o.done = true ↔ Box.size dims ≤ n
  values_eq : (∀ d ∈ dims, 0 < d) → o.values = Box.multiIndex dims n

theorem counted_first (dims : List Nat) : Counted dims 0 (first dims) := by
  refine ⟨rfl, ?_, fun _ => (Box.multiIndex_zero dims).symm⟩
  rw [Nat.le_zero, Box.size_eq_zero]
  simp [first]

namespace Counted
variable (h : Counted dims n o)
include h

theorem next : Counted dims (n + 1) o.next := by
  obtain ⟨odims, values, done⟩ := o
  obtain rfl : odims = dims := h.dims_eq
  by_cases hpos : ∀ d ∈ odims, 0 < d
  · obtain rfl : values = Box.multiIndex odims n := h.values_eq hpos
    rw [next_multiIndex hpos]
    refine ⟨rfl, ?_, fun _ => rfl⟩
    -- at the end it stays there; before, the carry goes through only from the last multi-index
    have hdone : done = true ↔ Box.size odims ≤ n := h.done_iff
    rw [Bool.or_eq_true, decide_eq_true_iff, hdone]
    constructor
    · rintro (hle | hdvd)
      · omega
      · exact Nat.le_of_dvd (by omega) hdvd
    · intro hle
      rcases Nat.lt_or_eq_of_le hle with hlt | heq
      · exact .inl (by omega)
      · exact .inr (by rw [heq])
  · have hzero : Box.size odims = 0 := Nat.eq_zero_of_not_pos fun hS => hpos (Box.pos_of_size_pos hS)
    have hdone : done = true := h.done_iff.2 (by omega)
    refine ⟨rfl, ?_, fun hpos' => absurd hpos' hpos⟩
    simp [Odometer.next, hdone, hzero]

theorem reset : Counted dims 0 o.reset := by
  rw [Odometer.reset, h.dims_eq]
  exact counted_first dims

/-- Before the end of the run. -/
theorem eq_of_lt (hn : n < Box.size dims) : o = ⟨dims, Box.multiIndex dims n, false⟩ := by
  obtain ⟨odims, values, done⟩ := o
  obtain rfl : odims = dims := h.dims_eq
  obtain rfl : values = Box.multiIndex odims n := h.values_eq (Box.pos_of_size_pos (by omega))
  have hdone : ¬done = true := fun hdone => absurd (h.done_iff.1 hdone) (by omega)
  rw [Bool.eq_false_iff.2 hdone]

theorem remaining_eq : o.remaining = Box.size dims - n := by
  by_cases hn : n < Box.size dims
  · have hbox := Box.multiIndex_inBox (Box.pos_of_size_pos (show 0 < Box.size dims by omega)) n
    rw [h.eq_of_lt hn, remaining, if_neg Bool.false_ne_true, position_eq hbox.length,
      Box.position_multiIndex hn]
  · rw [remaining, if_pos (h.done_iff.2 (by omega))]
    omega

/-! ### Loops over the rest of the run -/

section Fold
variable {m : Type → Type} [Monad m] {β : Type} (f : β → Odometer → m β)

theorem foldM_of_le (hn : Box.size dims ≤ n) (b : β) : foldM f b o = pure b := by
  rw [foldM, h.remaining_eq, Nat.sub_eq_zero_of_le hn]
  rfl

theorem foldM_of_lt (hn : n < Box.size dims) (b : β) :
    foldM f b o = (do foldM f (← f b o) o.next) := by
  have hsteps : Box.size dims - n = Box.size dims - (n + 1) + 1 := by omega
  simp only [foldM, h.remaining_eq, h.next.remaining_eq]
  rw [hsteps, foldSteps]

theorem foldM_eq (b : β) : foldM f b o =
    ((List.range' n (Box.size dims - n)).map (Box.multiIndex dims)).foldlM
      (fun b values => f b ⟨dims, values, false⟩) b := by
  -- by induction on what is left of the run
  induction hk : Box.size dims - n generalizing n o b with
  | zero => exact h.foldM_of_le f (by omega) b
  | succ k ih =>
    rw [h.foldM_of_lt f (by omega), List.range'_succ, List.map_cons, List.foldlM_cons,
      ← h.eq_of_lt (by omega)]
    congr 1
    funext c
    exact ih h.next c (by omega)

end Fold

end Counted

/-- A fold over the run of the counter is a fold over the list of multi-indices. -/
theorem foldM_first {m : Type → Type} [Monad m] {β : Type} (f : β → Odometer → m β) (b : β)
    (dims : List Nat) : foldM f b (first dims) =
      (Box.multiIndices dims).foldlM (fun b values => f b ⟨dims, values, false⟩) b := by
  rw [(counted_first dims).foldM_eq f b, Nat.sub_zero, ← List.range_eq_range', ← Box.multiIndices_eq]

/-- The loop that visits a multi-index and increments the counter until it is at its end. -/
inductive Walks : Odometer → List (List Nat) → Odometer → Prop where
  | stop {o : Odometer} (h : o.done = true) : Walks o [] o
  | visit {o last : Odometer} {seen : List (List Nat)} (h : o.done = false) (hrest : Walks o.next seen last) :
      Walks o (o.values :: seen) last

theorem Counted.walks (h : Counted dims n o) :
    ∃ last, Walks o ((List.range' n (Box.size dims - n)).map (Box.multiIndex dims)) last := by
  induction hk : Box.size dims - n generalizing n o with
  | zero => exact ⟨o, .stop (h.done_iff.2 (by omega))⟩
  | succ k ih =>
    obtain ⟨last, hlast⟩ := ih h.next (by omega)
    have ho := h.eq_of_lt (by omega)
    have hvalues : o.values = Box.multiIndex dims n := by rw [ho]
    refine ⟨last, ?_⟩
    rw [List.range'_succ, List.map_cons, ← hvalues]
    exact .visit (by rw [ho]) hlast

theorem Counted.flat_eq (h : Counted dims n o) (hpos : ∀ d ∈ dims, 0 < d)
    (hlimit : Box.size dims < Count.limit) : o.flat = .ok (n % Box.size dims) := by
  have hlt : n % Box.size dims < Box.size dims := Nat.mod_lt _ (Box.size_pos hpos)
  rw [flat, h.dims_eq, h.values_eq hpos, Box.flatten_eq (Box.multiIndex_inBox hpos n) hlimit.le,
    ← Box.multiIndex_mod hpos, Box.position_multiIndex hlt]

/-- The flat positions are collected in front of those seen before. -/
theorem Walks.collect_flats {seen : List (List Nat)} (hwalks : Walks o seen last)
    (hlimit : Box.size dims < Count.limit) : ∀ {n}, Counted dims n o → ∀ flats,
      foldM (fun (p : List Nat × Odometer) (o : Odometer) => do return ((← o.flat) :: p.1, o.next))
        (flats, o) o = (.ok ((List.range' n (Box.size dims - n)).reverse ++ flats, last) : Checked _) := by
  induction hwalks with
  | @stop o hdone =>
    intro n h flats
    have hn := h.done_iff.1 hdone
    rw [h.foldM_of_le _ hn, Nat.sub_eq_zero_of_le hn]
    rfl
  | @visit o last seen hdone _ ih =>
    intro n h flats
    have hn : n < Box.size dims := by
      by_contra hn
      simp [h.done_iff.2 (by omega)] at hdone
    have hflat := h.flat_eq (Box.pos_of_size_pos (by omega)) hlimit
    have hsteps : Box.size dims - n = Box.size dims - (n + 1) + 1 := by omega
    rw [Nat.mod_eq_of_lt hn] at hflat
    rw [h.foldM_of_lt _ hn, hflat, hsteps, List.range'_succ]
    simpa using ih h.next (n :: flats)

theorem Counted.walk_eq {seen : List (List Nat)} (h : Counted dims n o) (hwalks : Walks o seen last)
    (hlimit : Box.size dims < Count.limit) :
    o.walk = .ok (List.range' n (Box.size dims - n), last) := by
  rw [walk]
  refine bind_eq_ok.2 ⟨_, hwalks.collect_flats hlimit h [], ?_⟩
  simp [pure_eq_ok]

/-- The run visits the flat positions in order, each of them once. -/
theorem walk_first (h : Count.product dims = .ok n) :
    ∃ last, (first dims).walk = .ok (List.range n, last) := by
  obtain ⟨rfl, hlimit⟩ := Count.product_eq_ok h
  obtain ⟨last, hlast⟩ := (counted_first dims).walks
  refine ⟨last, ?_⟩
  rw [(counted_first dims).walk_eq hlast hlimit, Nat.sub_zero, List.range_eq_range']

/-! ### Sequences of moves -/

/-- What a counter can be told to do. -/
inductive Move where
  | increment
  | reset
deriving DecidableEq

def move (o : Odometer) : Move → Odometer
  | .increment => o.next
  | .reset => o.reset

/-- The counter after a sequence of moves. -/
def run (o : Odometer) (moves : List Move) : Odometer := moves.foldl move o

/-- The number of increments behind the last reset. -/
def sinceReset (moves : List Move) : Nat := (moves.reverse.takeWhile (· = .increment)).length

theorem counted_run (dims : List Nat) (moves : List Move) :
    Counted dims (sinceReset moves) ((first dims).run moves) := by
  induction moves using List.reverseRecOn with
  | nil => exact counted_first dims
  | append_singleton moves m ih =>
    rw [run, List.foldl_append]
    cases m with
    | increment =>
      have hcount : sinceReset (moves ++ [.increment]) = sinceReset moves + 1 := by simp [sinceReset]
      rw [hcount]
      exact ih.next
    | reset =>
      have hcount : sinceReset (moves ++ [.reset]) = 0 := by simp [sinceReset]
      rw [hcount]
      exact ih.reset

theorem map_position_rest (dims : List Nat) (n : Nat) :
    ((List.range' n (Box.size dims - n)).map (Box.multiIndex dims)).map (Box.position · dims) =
      List.range' n (Box.size dims - n) := by
  rw [List.map_map]
  conv_rhs => rw [← List.map_id (List.range' n (Box.size dims - n))]
  refine List.map_congr_left fun k hk => ?_
  rw [List.mem_range'_1] at hk
  exact Box.position_multiIndex (by omega)

theorem mem_rest {values : List Nat} :
    values ∈ (List.range' n (Box.size dims - n)).map (Box.multiIndex dims) ↔
      Box.InBox values dims ∧ n ≤ Box.position values dims := by
  simp only [List.mem_map, List.mem_range'_1]
  constructor
  · rintro ⟨k, ⟨hle, hlt⟩, rfl⟩
    rw [Box.position_multiIndex (by omega)]
    exact ⟨Box.multiIndex_inBox (Box.pos_of_size_pos (by omega)) k, hle⟩
  · rintro ⟨hbox, hle⟩
    have hlt := hbox.position_lt
    exact ⟨_, ⟨hle, by omega⟩, Box.multiIndex_position hbox⟩

/-- After any moves the counter is at its end if it was incremented as often as the box has multi-indices. It
stands at the multi-index of that number, counted round the box, and a loop from there visits the multi-indices
that are left, in the order of their positions: all of them if it was reset last. -/
theorem run_row_major (h : dims.length ≤ maxRank) :
    ∃ start, of dims = .ok start ∧ ∀ (moves : List Move) (o : Odometer) (n : Nat),
      start.run moves = o → sinceReset moves = n →
      (o.done = true ↔ Box.size dims ≤ n) ∧
      ((∀ d ∈ dims, d ≠ 0) → Box.InBox o.values dims ∧
        (∀ slots, slots.length = dims.length →
          Box.unflatten (n % Box.size dims) dims slots = .ok o.values) ∧
        (Box.size dims < Count.limit → o.flat = .ok (n % Box.size dims))) ∧
      ∃ seen last, Walks o seen last ∧ seen.Nodup ∧
        (∀ values, values ∈ seen ↔ Box.InBox values dims ∧ n ≤ Box.position values dims) ∧
        seen.map (Box.position · dims) = List.range' n (Box.size dims - n) ∧
        (Box.size dims < Count.limit → o.walk = .ok (List.range' n (Box.size dims - n), last)) ∧
        (0 ∈ dims → seen = []) := by
  have hstart : of dims = .ok (first dims) := by
    rw [of, checkRank, if_neg (by omega)]
    rfl
  refine ⟨first dims, hstart, ?_⟩
  rintro moves o n rfl rfl
  have hcounted := counted_run dims moves
  refine ⟨hcounted.done_iff, fun hne => ?_, ?_⟩
  · have hpos : ∀ d ∈ dims, 0 < d := fun d hd => Nat.pos_of_ne_zero (hne d hd)
    rw [hcounted.values_eq hpos]
    refine ⟨Box.multiIndex_inBox hpos _, fun slots hslots => ?_, hcounted.flat_eq hpos⟩
    rw [Box.unflatten_of_pos hpos hslots, Box.multiIndex_mod hpos]
  · obtain ⟨last, hlast⟩ := hcounted.walks
    have hpositions := map_position_rest dims (sinceReset moves)
    refine ⟨_, last, hlast, ?_, fun values => mem_rest, hpositions, hcounted.walk_eq hlast, fun hzero => ?_⟩
    · refine List.Nodup.of_map (Box.position · dims) ?_
      rw [hpositions]
      exact List.nodup_range' ..
    · rw [Box.size_eq_zero.2 hzero, Nat.zero_sub]
      rfl

/-- Of six multi-indices, the seventh increment behind a reset comes to the second one again, but stays at the
end. -/
theorem run_row_major_round : ∃ (start o : Odometer) (moves : List Move), [2, 1, 3].length ≤ maxRank ∧
    of [2, 1, 3] = .ok start ∧ start.run moves = o ∧ sinceReset moves = 7 ∧ o.done = true ∧
    Box.unflatten 1 [2, 1, 3] [9, 9, 9] = .ok o.values ∧ o.flat = .ok 1 ∧
    ∃ last, o.walk = .ok ([], last) := by
  have h : [2, 1, 3].length ≤ maxRank := by decide
  obtain ⟨start, hstart, hrun⟩ := run_row_major h
  let moves : List Move := [.increment, .reset] ++ List.replicate 7 .increment
  obtain ⟨hdone, hvalues, seen, last, -, -, -, -, hwalk, -⟩ := hrun moves _ 7 rfl rfl
  obtain ⟨-, hunflatten, hflat⟩ := hvalues (by simp)
  exact ⟨start, _, moves, h, hstart, rfl, rfl, hdone.2 (by decide), hunflatten _ rfl, hflat (by decide),
    last, hwalk (by decide)⟩

end TensorCalculus.Odometer
