import TensorCalculus.Proofs.Box

/-!
# Flattening and unflattening undo each other

`flatten` and `unflatten` go between the multi-indices of a box and the numbers below its size. If the lists
differ in length, both work on the part that the lists have in common (`flatten_take`, `unflatten_take`), and
`unflatten` keeps the slots behind it. On a part without a zero extent whose size is a count, `flatten` gives
the position of a multi-index and `unflatten` writes the multi-index at a position, counted round the box
(`flatten_part`, `unflatten_part`, `flatten_written`).
-/

namespace TensorCalculus.Box
variable {dims values slots : List Nat} {n : Nat}

/-! ### The common part -/

theorem take_common (h : min slots.length dims.length = n) : dims.take slots.length = dims.take n := by
  rw [← h, List.take_eq_take_iff]
  omega

theorem length_take_common (h : min slots.length dims.length = n) : (slots.take n).length = (dims.take n).length := by
  rw [List.length_take, List.length_take]
  omega

theorem flatten_take (h : min values.length dims.length = n) :
    flatten values dims = flatten (values.take n) (dims.take n) := by
  have hzip : values.zip dims = (values.take n).zip (dims.take n) := h ▸ List.zip_eq_zip_take_min
  unfold flatten
  rw [hzip]

theorem unflatten_take (h : min slots.length dims.length = n) (flat : Nat) :
    unflatten flat dims slots =
      (unflatten flat (dims.take n) (slots.take n)).map (· ++ slots.drop n) := by
  rw [unflatten, take_common h, unflatten_eq (length_take_common h)]
  cases hdigits : digits (dims.take n) flat with
  | error e => rfl
  | ok p =>
    have hlength : p.1.length = n := by
      rw [length_digits hdigits, List.length_take]
      omega
    simp only [ok_bind, hlength]
    rfl

/-! ### The laws on the common part -/

theorem flatten_part (h : min values.length dims.length = n) (hsize : size (dims.take n) ≤ Count.limit)
    (hbox : InBox (values.take n) (dims.take n)) :
    flatten values dims = .ok (position (values.take n) (dims.take n)) := by
  rw [flatten_take h, flatten_eq hbox hsize]

theorem unflatten_part (h : min slots.length dims.length = n) (hpos : ∀ d ∈ dims.take n, 0 < d) (flat : Nat) :
    unflatten flat dims slots = .ok (multiIndex (dims.take n) flat ++ slots.drop n) := by
  rw [unflatten_take h, unflatten_of_pos hpos (length_take_common h)]
  rfl

theorem position_multiIndex_mod (hpos : ∀ d ∈ dims, 0 < d) (k : Nat) :
    position (multiIndex dims k) dims = k % size dims := by
  rw [← multiIndex_mod hpos, position_multiIndex (Nat.mod_lt _ (size_pos hpos))]

/-- What was written for a number is flattened to it, counted round the box. -/
theorem flatten_written (h : min slots.length dims.length = n) (hpos : ∀ d ∈ dims.take n, 0 < d)
    (hsize : size (dims.take n) ≤ Count.limit) (flat : Nat) :
    flatten (multiIndex (dims.take n) flat ++ slots.drop n) dims = .ok (flat % size (dims.take n)) := by
  have hbox : InBox (multiIndex (dims.take n) flat) (dims.take n) := multiIndex_inBox hpos flat
  have hlength : (multiIndex (dims.take n) flat).length = n := by
    rw [hbox.length, List.length_take]
    omega
  have hwritten : min (multiIndex (dims.take n) flat ++ slots.drop n).length dims.length = n := by
    rw [List.length_append, List.length_drop]
    omega
  have htake : (multiIndex (dims.take n) flat ++ slots.drop n).take n = multiIndex (dims.take n) flat :=
    List.take_left' hlength
  rw [flatten_part hwritten hsize (by rwa [htake]), htake, position_multiIndex_mod hpos]

/-- Both use the first `n` extents, as many as the lists have in common. If none of these is zero and their
product is a count, then a multi-index is flattened to a number below the product from which it is written
again, and what is written for a number is a multi-index that is flattened to the number modulo the product. -/
theorem flatten_unflatten_inverse (dims : List Nat) (n : Nat) :
    (∀ values, min values.length dims.length = n →
      flatten values dims = flatten (values.take n) (dims.take n)) ∧
    (∀ flat slots, min slots.length dims.length = n → unflatten flat dims slots =
      (unflatten flat (dims.take n) (slots.take n)).map (· ++ slots.drop n)) ∧
    ((∀ d ∈ dims.take n, d ≠ 0) → size (dims.take n) < Count.limit →
      (∀ values, min values.length dims.length = n → InBox (values.take n) (dims.take n) →
        ∃ flat, flatten values dims = .ok flat ∧ flat < size (dims.take n) ∧
          ∀ slots, min slots.length dims.length = n →
            unflatten flat dims slots = .ok (values.take n ++ slots.drop n)) ∧
      ∀ flat slots, min slots.length dims.length = n →
        ∃ values, unflatten flat dims slots = .ok (values ++ slots.drop n) ∧ InBox values (dims.take n) ∧
          flatten (values ++ slots.drop n) dims = .ok (flat % size (dims.take n)) ∧
          (flat < size (dims.take n) → flatten (values ++ slots.drop n) dims = .ok flat)) := by
  refine ⟨fun values h => flatten_take h, fun flat slots h => unflatten_take h flat, fun hne hsize => ?_⟩
  have hpos : ∀ d ∈ dims.take n, 0 < d := fun d hd => Nat.pos_of_ne_zero (hne d hd)
  refine ⟨fun values h hbox => ?_, fun flat slots h => ?_⟩
  · refine ⟨_, flatten_part h hsize.le hbox, hbox.position_lt, fun slots hslots => ?_⟩
    rw [unflatten_part hslots hpos, multiIndex_position hbox]
  · have hflatten := flatten_written h hpos hsize.le flat
    refine ⟨_, unflatten_part h hpos flat, multiIndex_inBox hpos flat, hflatten, fun hlt => ?_⟩
    rw [hflatten, Nat.mod_eq_of_lt hlt]

/-- Two slots are written with the first two of three extents, so that the zero does not matter. A number past
the box of twelve comes round it. -/
theorem flatten_unflatten_inverse_front :
    (∀ d ∈ [3, 4, 0].take 2, d ≠ 0) ∧ size ([3, 4, 0].take 2) < Count.limit ∧
    InBox ([2, 1].take 2) ([3, 4, 0].take 2) ∧ unflatten 9 [3, 4, 0] [7, 7] = .ok [2, 1] ∧
    ∃ values, unflatten 21 [3, 4, 0] [7, 7] = .ok values ∧ flatten values [3, 4, 0] = .ok 9 := by
  have hne : ∀ d ∈ [3, 4, 0].take 2, d ≠ 0 := by decide
  have hsize : size ([3, 4, 0].take 2) < Count.limit := by decide
  have hbox : InBox ([2, 1].take 2) ([3, 4, 0].take 2) := .cons (by decide) (.cons (by decide) .nil)
  obtain ⟨-, -, hlaws⟩ := flatten_unflatten_inverse [3, 4, 0] 2
  obtain ⟨hforth, hback⟩ := hlaws hne hsize
  obtain ⟨flat, hflat, -, hvalues⟩ := hforth [2, 1] rfl hbox
  obtain rfl : 9 = flat := Except.ok.inj hflat
  obtain ⟨values, hwritten, -, hflatten, -⟩ := hback 21 [7, 7] rfl
  exact ⟨hne, hsize, hbox, hvalues [7, 7] rfl, _, hwritten, hflatten⟩

end TensorCalculus.Box
