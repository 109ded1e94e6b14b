import Mathlib.Data.List.Nodup
import Mathlib.Tactic.Ring
import TensorCalculus.Index.Odometer
import TensorCalculus.Proofs.Checked

/-!
# The multi-indices of a box

`multiIndices dims` lists the box in row-major order, `multiIndex dims k` is its entry at `k`
(`multiIndices_eq`) and `position` goes back. `flatten` is `position` and `unflatten` is `multiIndex`
as long as nothing overflows.
-/

namespace TensorCalculus

namespace Box
variable {dims values : List Nat} {k : Nat}

/-- The multi-indices of the box in row-major order. -/
def multiIndices : List Nat → List (List Nat)
  | [] => [[]]
  | d :: ds => (List.range d).flatMap fun v => (multiIndices ds).map (v :: ·)

/-- The multi-index at position `k`, counted round the box. -/
def multiIndex : List Nat → Nat → List Nat
  | [], _ => []
  | d :: ds, k => k / size ds % d :: multiIndex ds k

/-- The values are a multi-index of the box. -/
def InBox (values dims : List Nat) : Prop := List.Forall₂ (· < ·) values dims

/-- The position of a multi-index, in exact arithmetic. -/
def position : List Nat → List Nat → Nat
  | v :: vs, _ :: ds => v * size ds + position vs ds
  | _, _ => 0

@[simp] theorem size_nil : size [] = 1 := rfl

@[simp] theorem size_cons (d : Nat) (ds : List Nat) : size (d :: ds) = d * size ds := rfl

theorem size_pos (h : ∀ d ∈ dims, 0 < d) : 0 < size dims := by
  induction dims with
  | nil => simp
  | cons d ds ih => exact Nat.mul_pos (h d (by simp)) (ih fun e he => h e (by simp [he]))

theorem size_eq_zero : size dims = 0 ↔ 0 ∈ dims := by
  induction dims with
  | nil => simp
  | cons d ds ih => rw [size_cons, Nat.mul_eq_zero, ih, List.mem_cons, eq_comm]

theorem pos_of_size_pos (h : 0 < size dims) : ∀ d ∈ dims, 0 < d := by
  intro d hd
  by_contra hcon
  obtain rfl : d = 0 := by omega
  rw [size_eq_zero.2 hd] at h
  omega

/-! ### Positions -/

theorem InBox.length (h : InBox values dims) : values.length = dims.length := List.Forall₂.length_eq h

theorem InBox.pos (h : InBox values dims) : ∀ d ∈ dims, 0 < d := by
  induction h with
  | nil => simp
  | cons hv _ ih =>
    intro d hd
    rcases List.mem_cons.1 hd with rfl | hd
    · omega
    · exact ih d hd

theorem inBox_replicate {d : Nat} (h : ∀ v ∈ values, v < d) :
    InBox values (List.replicate values.length d) := by
  induction values with
  | nil => exact .nil
  | cons v vs ih => exact .cons (h v (by simp)) (ih fun w hw => h w (by simp [hw]))

theorem InBox.position_lt (h : InBox values dims) : position values dims < size dims := by
  induction h with
  | nil => simp [position]
  | @cons v d vs ds hv hvs ih =>
    calc v * size ds + position vs ds < v * size ds + size ds := by omega
      _ = (v + 1) * size ds := by ring
      _ ≤ d * size ds := Nat.mul_le_mul_right _ hv

theorem multiIndex_inBox (h : ∀ d ∈ dims, 0 < d) (k : Nat) : InBox (multiIndex dims k) dims := by
  induction dims with
  | nil => exact .nil
  | cons d ds ih =>
    exact .cons (Nat.mod_lt _ (h d (by simp))) (ih fun e he => h e (by simp [he]))

theorem multiIndex_zero (dims : List Nat) : multiIndex dims 0 = dims.map fun _ => 0 := by
  induction dims with
  | nil => rfl
  | cons d ds ih => rw [multiIndex, ih, Nat.zero_div, Nat.zero_mod, List.map_cons]

/-- Whole rounds of the box do not count. -/
theorem multiIndex_mul_add (a j : Nat) (h : ∀ d ∈ dims, 0 < d) :
    multiIndex dims (a * size dims + j) = multiIndex dims j := by
  induction dims generalizing a with
  | nil => rfl
  | cons d ds ih =>
    have hds : ∀ e ∈ ds, 0 < e := fun e he => h e (by simp [he])
    have hS := size_pos hds
    have hassoc : a * size (d :: ds) = a * d * size ds := by rw [size_cons]; ring
    rw [hassoc, multiIndex, multiIndex, ih (a * d) hds, Nat.add_comm (a * d * size ds),
      Nat.add_mul_div_right _ _ hS, Nat.add_mul_mod_self_right]

theorem multiIndex_mod (h : ∀ d ∈ dims, 0 < d) (k : Nat) :
    multiIndex dims (k % size dims) = multiIndex dims k := by
  conv_rhs => rw [← Nat.div_add_mod k (size dims), Nat.mul_comm]
  exact (multiIndex_mul_add _ _ h).symm

theorem position_multiIndex (hk : k < size dims) : position (multiIndex dims k) dims = k := by
  induction dims generalizing k with
  | nil =>
    rw [size_nil] at hk
    simp only [multiIndex, position]
    omega
  | cons d ds ih =>
    have hS : 0 < size ds := by
      by_contra hcon
      rw [size_cons, show size ds = 0 by omega, Nat.mul_zero] at hk
      omega
    have hdiv : k / size ds < d := Nat.div_lt_of_lt_mul (by rwa [Nat.mul_comm])
    rw [multiIndex, position, ← multiIndex_mod (pos_of_size_pos hS), ih (Nat.mod_lt _ hS),
      Nat.mod_eq_of_lt hdiv, Nat.mul_comm, Nat.div_add_mod]

theorem multiIndex_position (h : InBox values dims) : multiIndex dims (position values dims) = values := by
  induction h with
  | nil => rfl
  | @cons v d vs ds hv hvs ih =>
    have hlt := InBox.position_lt hvs
    rw [position, multiIndex, multiIndex_mul_add v _ (InBox.pos hvs), ih, Nat.add_comm,
      Nat.add_mul_div_right _ _ (by omega), Nat.div_eq_of_lt hlt, Nat.zero_add, Nat.mod_eq_of_lt hv]

theorem position_injOn {values' : List Nat} (h : InBox values dims) (h' : InBox values' dims)
    (heq : position values dims = position values' dims) : values = values' := by
  rw [← multiIndex_position h, heq, multiIndex_position h']

theorem range_mul (d n : Nat) :
    List.range (d * n) = (List.range d).flatMap fun v => (List.range n).map (v * n + ·) := by
  induction d with
  | zero => simp
  | succ d ih => rw [Nat.succ_mul, List.range_add, ih, List.range_succ, List.flatMap_append]; simp

/-- The list of all multi-indices has at each place the multi-index of that position. -/
theorem multiIndices_eq (dims : List Nat) :
    multiIndices dims = (List.range (size dims)).map (multiIndex dims) := by
  induction dims with
  | nil => rfl
  | cons d ds ih =>
    rw [multiIndices, ih, size_cons, range_mul, List.map_flatMap]
    refine List.flatMap_congr fun v hv => ?_
    rw [List.map_map, List.map_map]
    refine List.map_congr_left fun j hj => ?_
    have hj : j < size ds := List.mem_range.1 hj
    have hS : 0 < size ds := by omega
    simp only [Function.comp_apply, multiIndex]
    rw [multiIndex_mul_add v j (pos_of_size_pos hS), Nat.add_comm, Nat.add_mul_div_right _ _ hS,
      Nat.div_eq_of_lt hj, Nat.zero_add, Nat.mod_eq_of_lt (List.mem_range.1 hv)]

/-- A loop over a box that reads at the position of each multi-index goes through the positions in order. -/
theorem mapM_position {ε α : Type} (read : Nat → Except ε α) (dims : List Nat) :
    (multiIndices dims).mapM (fun values => read (position values dims)) =
      (List.range (size dims)).mapM read := by
  rw [multiIndices_eq, List.mapM_map]
  exact mapM_congr fun k hk => congrArg read (position_multiIndex (List.mem_range.1 hk))

theorem length_multiIndices : (multiIndices dims).length = size dims := by
  rw [multiIndices_eq, List.length_map, List.length_range]

theorem getElem?_multiIndices (h : InBox values dims) :
    (multiIndices dims)[position values dims]? = some values := by
  rw [multiIndices_eq, List.getElem?_map, List.getElem?_range h.position_lt, Option.map_some,
    multiIndex_position h]

theorem nodup_multiIndices : (multiIndices dims).Nodup := by
  rw [multiIndices_eq]
  refine List.Nodup.map_on (fun j hj k hk heq => ?_) List.nodup_range
  rw [← position_multiIndex (List.mem_range.1 hj), heq, position_multiIndex (List.mem_range.1 hk)]

theorem mem_multiIndices : values ∈ multiIndices dims ↔ InBox values dims := by
  rw [multiIndices_eq, List.mem_map]
  constructor
  · rintro ⟨k, hk, rfl⟩
    have hk : k < size dims := List.mem_range.1 hk
    exact multiIndex_inBox (pos_of_size_pos (by omega)) k
  · intro h
    exact ⟨_, List.mem_range.2 h.position_lt, multiIndex_position h⟩

theorem length_of_mem_multiIndices (h : values ∈ multiIndices dims) : values.length = dims.length :=
  (mem_multiIndices.1 h).length

/-! ### Flattening -/

theorem flatten_from {acc bound : Nat} (h : InBox values dims) (hacc : acc < bound)
    (hbound : bound * size dims ≤ Count.limit) :
    (values.zip dims).foldlM (fun flat p => do Count.add (← Count.mul flat p.2) p.1) acc =
      .ok (acc * size dims + position values dims) := by
  induction h generalizing acc bound with
  | nil => simp [position, pure_eq_ok]
  | @cons v d vs ds hv hvs ih =>
    have hS := size_pos (InBox.pos hvs)
    have hnext : acc * d + v < bound * d := by
      calc acc * d + v < acc * d + d := by omega
        _ = (acc + 1) * d := by ring
        _ ≤ bound * d := Nat.mul_le_mul_right _ hacc
    have hsize : bound * d * size ds ≤ Count.limit := by rwa [Nat.mul_assoc]
    have hlimit : acc * d + v < Count.limit :=
      hnext.trans_le ((Nat.le_mul_of_pos_right _ hS).trans hsize)
    rw [List.zip_cons_cons, List.foldlM_cons]
    simp only [Count.mul_of_lt (show acc * d < Count.limit by omega), ok_bind,
      Count.add_of_lt hlimit]
    rw [ih hnext hsize, size_cons, position]
    congr 1
    ring

theorem flatten_eq (h : InBox values dims) (hsize : size dims ≤ Count.limit) :
    flatten values dims = .ok (position values dims) := by
  have := flatten_from h Nat.zero_lt_one (by rwa [Nat.one_mul])
  rwa [Nat.zero_mul, Nat.zero_add] at this

/-- What flattening gives is the position. -/
theorem flatten_eq_ok {k : Nat} (hlength : values.length = dims.length) (h : flatten values dims = .ok k) :
    position values dims = k := by
  have hfold : ∀ (vs ds : List Nat) (acc : Nat), vs.length = ds.length →
      (vs.zip ds).foldlM (fun flat p => do Count.add (← Count.mul flat p.2) p.1) acc = .ok k →
      acc * size ds + position vs ds = k := by
    intro vs
    induction vs with
    | nil =>
      intro ds acc hlength h
      obtain rfl := List.length_eq_zero_iff.1 hlength.symm
      cases h
      simp [position]
    | cons v vs ih =>
      intro ds acc hlength h
      match ds, hlength with
      | d :: ds, hlength =>
        rw [List.zip_cons_cons, List.foldlM_cons] at h
        obtain ⟨acc', hacc, h⟩ := bind_eq_ok.1 h
        obtain ⟨n, hn, hacc⟩ := bind_eq_ok.1 hacc
        obtain ⟨-, rfl⟩ := Count.mul_eq_ok.1 hn
        obtain ⟨-, rfl⟩ := Count.add_eq_ok.1 hacc
        rw [← ih ds _ (by simpa using hlength) h, size_cons, position]
        ring
  have := hfold values dims 0 hlength h
  rwa [Nat.zero_mul, Nat.zero_add] at this

theorem digits_eq (h : ∀ d ∈ dims, 0 < d) (k : Nat) :
    digits dims k = .ok (multiIndex dims k, k / size dims) := by
  induction dims with
  | nil => simp [digits, multiIndex]
  | cons d ds ih =>
    have hd : 0 < d := h d (by simp)
    rw [digits, ih fun e he => h e (by simp [he])]
    simp only [ok_bind, Count.mod_of_pos hd, Count.div_of_pos hd, pure_eq_ok, multiIndex, size_cons,
      Nat.div_div_eq_div_mul, Nat.mul_comm]

theorem length_digits {k : Nat} {values : List Nat} {rest : Nat} (h : digits dims k = .ok (values, rest)) :
    values.length = dims.length := by
  induction dims generalizing values rest with
  | nil => cases h; rfl
  | cons d ds ih =>
    rw [digits] at h
    obtain ⟨⟨vs, r⟩, hds, h⟩ := bind_eq_ok.1 h
    obtain ⟨v, -, h⟩ := bind_eq_ok.1 h
    obtain ⟨q, -, h⟩ := bind_eq_ok.1 h
    cases h
    simp [ih hds]

/-- Into a row that is just long enough, the whole multi-index is written. -/
theorem unflatten_eq {k : Nat} {slots : List Nat} (h : slots.length = dims.length) :
    unflatten k dims slots = (do return (← digits dims k).1) := by
  rw [unflatten, h, List.take_length]
  cases hdigits : digits dims k with
  | error e => rfl
  | ok p =>
    obtain ⟨values, rest⟩ := p
    have hlength := length_digits hdigits
    simp only [ok_bind]
    rw [List.drop_eq_nil_of_le (by omega), List.append_nil]

theorem unflatten_of_pos {k : Nat} {slots : List Nat} (hpos : ∀ d ∈ dims, 0 < d)
    (h : slots.length = dims.length) : unflatten k dims slots = .ok (multiIndex dims k) := by
  rw [unflatten_eq h, digits_eq hpos]
  rfl

end Box

theorem Count.foldlM_mul_eq_ok {dims : List Nat} {acc n : Nat} (hacc : acc < Count.limit)
    (h : dims.foldlM Count.mul acc = .ok n) : acc * Box.size dims = n ∧ n < Count.limit := by
  induction dims generalizing acc with
  | nil =>
    cases h
    exact ⟨Nat.mul_one _, hacc⟩
  | cons d ds ih =>
    rw [List.foldlM_cons] at h
    obtain ⟨acc', hmul, h⟩ := bind_eq_ok.1 h
    obtain ⟨hlt, rfl⟩ := Count.mul_eq_ok.1 hmul
    rw [Box.size_cons, ← Nat.mul_assoc]
    exact ih hlt h

/-- The product of extents is the size of their box. -/
theorem Count.product_eq_ok {dims : List Nat} {n : Nat} (h : Count.product dims = .ok n) :
    Box.size dims = n ∧ n < Count.limit := by
  simpa using Count.foldlM_mul_eq_ok (by decide) h

theorem Count.foldlM_mul_ok {dims : List Nat} {acc : Nat}
    (h : ∀ n, acc * Box.size (dims.take n) < Count.limit) :
    dims.foldlM Count.mul acc = .ok (acc * Box.size dims) := by
  induction dims generalizing acc with
  | nil => simp [pure_eq_ok]
  | cons d ds ih =>
    have hmul : Count.mul acc d = .ok (acc * d) := Count.mul_of_lt (by simpa using h 1)
    rw [List.foldlM_cons, hmul, ok_bind, Box.size_cons, ← Nat.mul_assoc]
    exact ih fun n => by simpa [Nat.mul_assoc] using h (n + 1)

/-- A product is formed if it is a count, and so are the products on the way to it. -/
theorem Count.product_ok {dims : List Nat} (h : ∀ n, Box.size (dims.take n) < Count.limit) :
    Count.product dims = .ok (Box.size dims) := by
  have hfold := @Count.foldlM_mul_ok dims 1 (by simpa using h)
  rwa [Nat.one_mul] at hfold

end TensorCalculus
