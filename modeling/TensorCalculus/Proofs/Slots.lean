import Mathlib.Data.List.Perm.Subperm
import TensorCalculus.Expr.Component
import TensorCalculus.Proofs.Checked

/-!
# Values by name and values by position

An `Assignment` gives a value to each symbol. `Located names ps is` says that the symbols `is` stand at
the positions `ps` of the list `names`. `Holds row names env ps` says of a row of slots that at each
of the positions `ps` it has the value of the symbol there. Writing values by position adds to what a
row holds (`Holds.put`, `Holds.place`); a row that holds every position reads as the list of values
(`Holds.front`).
-/

namespace TensorCalculus

/-- The values of the symbols. -/
abbrev Assignment := Index → Nat

/-- Gives new values to some symbols. -/
def Assignment.extend (env : Assignment) (names : List Index) (values : List Nat) : Assignment :=
  fun i => ((names.zip values).lookup i).getD (env i)

namespace Assignment
variable {env : Assignment} {names : List Index} {values : List Nat}

theorem extend_of_not_mem {i : Index} (h : i ∉ names) : env.extend names values i = env i := by
  have hnone : (names.zip values).lookup i = none := by
    rw [List.lookup_eq_none_iff]
    rintro ⟨j, v⟩ hmem
    have hj : j ∈ names := (List.of_mem_zip hmem).1
    simpa using fun hij : i = j => h (hij ▸ hj)
  simp [extend, hnone]

theorem extend_cons_self (env : Assignment) (names : List Index) (values : List Nat) (i : Index) (v : Nat) :
    env.extend (i :: names) (v :: values) i = v := by simp [extend]

theorem extend_cons_of_ne {i j : Index} {v : Nat} (h : j ≠ i) :
    env.extend (i :: names) (v :: values) j = env.extend names values j := by
  have hji : (j == i) = false := by simpa using h
  simp [extend, List.lookup_cons, hji]

theorem map_extend (hnodup : names.Nodup) (hlen : names.length = values.length) :
    names.map (env.extend names values) = values := by
  induction names generalizing values with
  | nil => exact (List.length_eq_zero_iff.1 hlen.symm).symm
  | cons i names ih =>
    obtain ⟨hi, hnames⟩ := List.nodup_cons.1 hnodup
    match values, hlen with
    | v :: values, hlen =>
      have htail : names.map (env.extend (i :: names) (v :: values)) =
          names.map (env.extend names values) :=
        List.map_congr_left fun j hj => extend_cons_of_ne fun hji => hi (hji ▸ hj)
      rw [List.map_cons, extend_cons_self, htail, ih hnames (by simpa using hlen)]

theorem extend_map_self (env : Assignment) (names : List Index) : env.extend names (names.map env) = env := by
  induction names with
  | nil => rfl
  | cons i names ih =>
    funext j
    by_cases hji : j = i
    · simp [hji, extend]
    · rw [List.map_cons, extend_cons_of_ne hji, ih]

/-- The values of the new symbols are all that matters there. -/
theorem extend_congr {env' : Assignment} {i : Index} (hnodup : names.Nodup)
    (hlength : names.length = values.length) (hi : i ∈ names) :
    env.extend names values i = env'.extend names values i :=
  List.map_inj_left.1 ((map_extend hnodup hlength).trans (map_extend hnodup hlength).symm) i hi

end Assignment

/-- The symbols `is` stand at the positions `ps` of `names`. -/
def Located (names : List Index) (ps : List Nat) (is : List Index) : Prop :=
  List.Forall₂ (fun p i => names[p]? = some i) ps is

theorem located_singleton {names : List Index} {p : Nat} {i : Index} (h : names[p]? = some i) :
    Located names [p] [i] := .cons h .nil

namespace Located
variable {names is js : List Index} {ps qs : List Nat}

theorem length_eq (h : Located names ps is) : ps.length = is.length := List.Forall₂.length_eq h

theorem exists_symbol (h : Located names ps is) {p : Nat} (hp : p ∈ ps) :
    ∃ i ∈ is, names[p]? = some i := forall₂_exists_right h hp

theorem exists_position (h : Located names ps is) {i : Index} (hi : i ∈ is) :
    ∃ p ∈ ps, names[p]? = some i := forall₂_exists_right h.flip hi

theorem mem_names (h : Located names ps is) {i : Index} (hi : i ∈ is) : i ∈ names := by
  obtain ⟨p, -, hp⟩ := h.exists_position hi
  exact List.mem_of_getElem? hp

/-- Different symbols stand at different positions. -/
theorem nodup (h : Located names ps is) (his : is.Nodup) : ps.Nodup := by
  induction h with
  | nil => exact .nil
  | @cons p i ps is hp hps ih =>
    obtain ⟨hi, his⟩ := List.nodup_cons.1 his
    refine List.nodup_cons.2 ⟨fun hmem => ?_, ih his⟩
    obtain ⟨j, hj, hpj⟩ := exists_symbol hps hmem
    obtain rfl := Option.some.inj (hp.symm.trans hpj)
    exact hi hj

/-- A symbol that occurs once has no other position. -/
theorem mem_of_getElem? (h : Located names ps is) (hnodup : names.Nodup) {p : Nat} {i : Index}
    (hp : names[p]? = some i) (hi : i ∈ is) : p ∈ ps := by
  obtain ⟨q, hq, hqi⟩ := h.exists_position hi
  have hlt : p < names.length := (List.getElem?_eq_some_iff.1 hp).1
  rwa [(List.getElem?_inj hlt hnodup).1 (hp.trans hqi.symm)]

theorem length_le (h : Located names ps is) (hnodup : is.Nodup) : is.length ≤ names.length :=
  (hnodup.subperm fun _ hi => h.mem_names hi).length_le

theorem covers (h : Located names ps is) (h' : Located names qs js) (hnodup : names.Nodup)
    (hsplit : ∀ i ∈ names, i ∈ is ∨ i ∈ js) : ∀ p < names.length, p ∈ ps ∨ p ∈ qs := by
  intro p hp
  have hget : names[p]? = some (names.get ⟨p, hp⟩) := List.getElem?_eq_getElem hp
  rcases hsplit _ (List.mem_of_getElem? hget) with hi | hi
  · exact .inl (h.mem_of_getElem? hnodup hget hi)
  · exact .inr (h'.mem_of_getElem? hnodup hget hi)

/-- Reading the values at the positions of symbols. -/
theorem mapM_entry (h : Located names ps is) (env : Assignment) :
    ps.mapM (entry (names.map env)) = .ok (is.map env) := by
  rw [mapM_eq_ok, List.forall₂_map_right_iff]
  refine h.imp fun p i hp => ?_
  rw [entry_eq_ok, List.getElem?_map, hp]
  rfl

end Located

/-! ### Rows of slots -/

/-- At the positions `ps` the row has the values of the symbols that stand there in `names`. -/
structure Holds (row : List Nat) (names : List Index) (env : Assignment) (ps : List Nat) : Prop where
  length : row.length = maxRank
  slot : ∀ p ∈ ps, ∃ i, names[p]? = some i ∧ row[p]? = some (env i)

namespace Holds
variable {row : List Nat} {names is : List Index} {env env' : Assignment} {ps qs : List Nat}

theorem blank (names : List Index) (env : Assignment) : Holds blank names env [] :=
  ⟨by simp [TensorCalculus.blank], by simp⟩

theorem mono (h : Holds row names env ps) (hsub : ∀ q ∈ qs, q ∈ ps) : Holds row names env qs :=
  ⟨h.length, fun q hq => h.slot q (hsub q hq)⟩

/-- Only the symbols at the positions matter. -/
theorem congr (h : Holds row names env ps)
    (hagree : ∀ p ∈ ps, ∀ i, names[p]? = some i → env i = env' i) : Holds row names env' ps := by
  refine ⟨h.length, fun p hp => ?_⟩
  obtain ⟨i, hi, hrow⟩ := h.slot p hp
  exact ⟨i, hi, by rw [hrow, hagree p hp i hi]⟩

/-- Symbols that keep their value under an extension. -/
theorem extend (h : Holds row names env (ps ++ [])) (hps : Located names ps is) {new : List Index}
    (hnew : ∀ i ∈ is, i ∉ new) (values : List Nat) : Holds row names (env.extend new values) ps := by
  rw [List.append_nil] at h
  refine h.congr fun p hp i hi => ?_
  obtain ⟨j, hj, hpj⟩ := hps.exists_symbol hp
  rw [hi, Option.some.injEq] at hpj
  exact (Assignment.extend_of_not_mem (hnew i (hpj ▸ hj))).symm

theorem put (h : Holds row names env ps) {p : Nat} {i : Index} (hp : names[p]? = some i)
    (hrank : names.length ≤ maxRank) :
    ∃ row', putSlot row p (env i) = .ok row' ∧ Holds row' names env (p :: ps) := by
  have hlt : p < row.length := by
    have := (List.getElem?_eq_some_iff.1 hp).1
    rw [h.length]
    omega
  refine ⟨row.set p (env i), if_pos hlt, by rw [List.length_set, h.length], fun q hq => ?_⟩
  by_cases hqp : q = p
  · subst hqp
    exact ⟨i, hp, by rw [List.getElem?_set_self hlt]⟩
  · obtain ⟨j, hj, hrow⟩ := h.slot q (by simpa [hqp] using hq)
    exact ⟨j, hj, by rw [List.getElem?_set_ne (Ne.symm hqp), hrow]⟩

theorem place (h : Holds row names env ps) (hqs : Located names qs is)
    (hrank : names.length ≤ maxRank) :
    ∃ row', TensorCalculus.place row qs (is.map env) = .ok row' ∧ Holds row' names env (qs ++ ps) := by
  induction hqs generalizing row ps with
  | nil => exact ⟨row, rfl, h⟩
  | @cons q i qs is hq _ ih =>
    obtain ⟨row₁, hput, hrow₁⟩ := h.put hq hrank
    obtain ⟨row₂, hplace, hrow₂⟩ := ih hrow₁
    refine ⟨row₂, ?_, hrow₂.mono fun r hr => by simp at hr ⊢; tauto⟩
    show (putSlot row q (env i) >>= fun row => TensorCalculus.place row qs (is.map env)) = _
    rw [hput, ok_bind, hplace]

/-- A row that holds every position reads as the list of values. -/
theorem front (h : Holds row names env ps) (hrank : names.length ≤ maxRank)
    (hall : ∀ p < names.length, p ∈ ps) : front names.length row = .ok (names.map env) := by
  have htake : row.take names.length = names.map env := by
    refine List.ext_getElem? fun p => ?_
    rw [List.getElem?_take, List.getElem?_map]
    split
    · next hp =>
      obtain ⟨i, hi, hrow⟩ := h.slot p (hall p hp)
      rw [hrow, hi]
      rfl
    · next hp => simp [List.getElem?_eq_none (Nat.le_of_not_lt hp)]
  rw [TensorCalculus.front, if_pos (by rw [h.length]; exact hrank), htake]

end Holds

/-- Values beyond the positions are not looked at. -/
theorem place_append {row ps vs ws : List Nat} (h : ps.length = vs.length) :
    place row ps (vs ++ ws) = place row ps vs := by
  rw [place, place, ← List.append_nil ps, List.zip_append h]
  simp

section Sides
variable {ps qs vs ws : List Nat}

theorem filter_zip_side (side other : Side) :
    ((ps.map (other, ·)).zip vs).filter (fun p => p.1.1 = side) =
      if other = side then (ps.zip vs).map fun p => ((other, p.1), p.2) else [] := by
  have hzip : (ps.map (other, ·)).zip vs = (ps.zip vs).map fun p => ((other, p.1), p.2) := by
    rw [List.zip_map_left]
    rfl
  rw [hzip, List.filter_map]
  split
  · next h => rw [List.filter_eq_self.2 fun p _ => by simp [h]]
  · next h => rw [List.filter_eq_nil_iff.2 fun p _ => by simp [h]]; rfl

theorem placeSide_left (h : ps.length = vs.length) :
    placeSide .left (ps.map (Side.left, ·) ++ qs.map (Side.right, ·)) (vs ++ ws) = place blank ps vs := by
  rw [placeSide, List.zip_append (by simpa using h)]
  simp only [List.filter_append, filter_zip_side, List.map_map, if_true, reduceCtorEq,
    if_false, List.append_nil, Function.comp_def]
  rw [List.map_fst_zip (by omega), List.map_snd_zip (by omega)]

theorem placeSide_right (h : ps.length = vs.length) (h' : qs.length = ws.length) :
    placeSide .right (ps.map (Side.left, ·) ++ qs.map (Side.right, ·)) (vs ++ ws) = place blank qs ws := by
  rw [placeSide, List.zip_append (by simpa using h)]
  simp only [List.filter_append, filter_zip_side, List.map_map, if_true, reduceCtorEq,
    if_false, List.nil_append, Function.comp_def]
  rw [List.map_fst_zip (by omega), List.map_snd_zip (by omega)]

end Sides

end TensorCalculus
