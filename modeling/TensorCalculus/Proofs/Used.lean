import TensorCalculus.Proofs.Build

/-!
# Symbols that are summed over

Beside its free symbols an expression keeps the symbols that were summed over on the way (`Expr.used`),
so that no later step takes one of them for something else. Here is which symbols leaves, sums and products
use, and which clashes between operands they have ruled out.
-/

namespace TensorCalculus.Expr
variable {α : Type} {e left right inner : Expr α}

theorem indexed_used {storage : Storage α} {written : List Index} {factors : List Concept}
    (h : Expr.indexed storage written factors = .ok e) : e.used = Occurrence.occurring 2 written := by
  unfold Expr.indexed at h
  obtain ⟨l, hl, h⟩ := bind_eq_ok.1 h
  cases h
  obtain ⟨dims, pairs, -, -, -, rfl⟩ := Leaf.of_cases hl
  rfl

/-! ### Sums and products -/

/-- No symbol that one operand has summed over is free in the other. -/
structure Compatible (left right : Expr α) : Prop where
  left_used : ∀ i ∈ left.used, i ∉ symbols right.free
  right_used : ∀ i ∈ right.used, i ∉ symbols left.free

theorem checkReuse_eq_ok (h : checkReuse left right = .ok ()) : Compatible left right := by
  unfold checkReuse at h
  split at h
  · cases h
  next hnil =>
  obtain ⟨hleft, hright⟩ := List.append_eq_nil_iff.1 hnil
  constructor
  · intro i hused hfree
    exact List.not_mem_nil (hleft ▸ Occurrence.mem_common.2 ⟨hused, hfree⟩)
  · intro i hused hfree
    exact List.not_mem_nil (hright ▸ Occurrence.mem_common.2 ⟨hused, hfree⟩)

theorem add_used {op : SumOp} (h : add op left right = .ok e) :
    Compatible left right ∧ e.used = Occurrence.distinct (left.used ++ right.used) := by
  unfold add at h
  obtain ⟨⟨⟩, hreuse, h⟩ := bind_eq_ok.1 h
  obtain ⟨permutation, -, h⟩ := bind_eq_ok.1 h
  cases h
  exact ⟨checkReuse_eq_ok hreuse, rfl⟩

theorem mul_used (h : left.mul right = .ok e) : Compatible left right ∧
    e.used = Occurrence.distinct
      (left.used ++ right.used ++ Occurrence.common (symbols left.free) (symbols right.free)) ∧
    ∀ b ∈ e.free, b ∈ left.free ∨ b ∈ right.free := by
  unfold mul at h
  obtain ⟨⟨⟩, hreuse, h⟩ := bind_eq_ok.1 h
  obtain ⟨partners, hpartners, h⟩ := bind_eq_ok.1 h
  obtain rfl := partners_eq hpartners
  dsimp only at h
  rw [filterMap_partners, symbols_contractedRows, filterMap_isNone_partners] at h
  obtain ⟨⟨⟩, -, h⟩ := bind_eq_ok.1 h
  obtain ⟨⟨⟩, -, h⟩ := bind_eq_ok.1 h
  cases h
  refine ⟨checkReuse_eq_ok hreuse, rfl, fun b hb => ?_⟩
  obtain ⟨row, hrow, rfl⟩ := List.mem_map.1 hb
  rcases List.mem_append.1 hrow with hrow | hrow
  · obtain ⟨p, hp, rfl⟩ := List.mem_map.1 hrow
    exact .inl (List.fst_mem_of_mem_zipIdx (List.mem_of_mem_filter hp))
  · obtain ⟨p, hp, hrow⟩ := List.mem_filterMap.1 hrow
    split at hrow
    · cases hrow
      exact .inr (List.fst_mem_of_mem_zipIdx hp)
    · cases hrow

end TensorCalculus.Expr
