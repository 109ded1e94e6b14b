import Mathlib.Data.List.Basic
import TensorCalculus.Expr.Component
import TensorCalculus.Proofs.FreeIndex

/-!
# Relabelling an expression

`Expr.relabel ρ e` puts `ρ i` for each symbol `i` that stands somewhere in the tree, and leaves all
positions as they are. So it leaves the components alone (`component_relabel`). For an injective `ρ` the
constructors of sums and products do not notice: from relabelled operands they make the relabelled
expression (`add_relabel`, `mul_relabel`), since they only ask which symbols are equal.
-/

namespace TensorCalculus

/-! ### The relabelled tree -/

/-- The index with its symbol replaced. -/
def BoundIndex.relabel (ρ : Index → Index) (b : BoundIndex) : BoundIndex := b.renamed (ρ b.index)

variable {α : Type} (ρ : Index → Index)

def Leaf.relabel (l : Leaf α) : Leaf α :=
  { l with
    written := l.written.map ρ
    free := l.free.map (BoundIndex.relabel ρ)
    used := l.used.map ρ }

namespace Expr

/-- The tree with each of its symbols replaced. -/
def relabel : Expr α → Expr α
  | .leaf plan => .leaf (plan.relabel ρ)
  | .evaluated free array => .evaluated (free.map (BoundIndex.relabel ρ)) array
  | .sum op left right plan =>
    .sum op left.relabel right.relabel { plan with used := plan.used.map ρ }
  | .scaled op inner scalar => .scaled op inner.relabel scalar
  | .product left right plan =>
    .product left.relabel right.relabel
      { plan with free := plan.free.map (BoundIndex.relabel ρ), used := plan.used.map ρ }
  | .bundle inner plan => .bundle inner.relabel { plan with free := plan.free.map (BoundIndex.relabel ρ) }
  | .split inner plan => .split inner.relabel { plan with free := plan.free.map (BoundIndex.relabel ρ) }
  | .embed inner plan => .embed inner.relabel { plan with free := plan.free.map (BoundIndex.relabel ρ) }
  | .coembed inner plan => .coembed inner.relabel { plan with free := plan.free.map (BoundIndex.relabel ρ) }

@[simp] theorem free_relabel (e : Expr α) : (e.relabel ρ).free = e.free.map (BoundIndex.relabel ρ) := by
  induction e with
  | sum op left right plan ihl => exact ihl
  | scaled op inner scalar ih => exact ih
  | _ => rfl

@[simp] theorem used_relabel (e : Expr α) : (e.relabel ρ).used = e.used.map ρ := by
  induction e with
  | scaled op inner scalar ih => exact ih
  | bundle inner plan ih => exact ih
  | split inner plan ih => exact ih
  | embed inner plan ih => exact ih
  | coembed inner plan ih => exact ih
  | _ => rfl

@[simp] theorem rank_relabel (e : Expr α) : (e.relabel ρ).rank = e.rank := by simp [rank]

end Expr

@[simp] theorem symbols_relabel (free : List BoundIndex) :
    symbols (free.map (BoundIndex.relabel ρ)) = (symbols free).map ρ := by
  simp [symbols, BoundIndex.relabel, BoundIndex.renamed]

@[simp] theorem freeSymbols_relabel (e : Expr α) :
    (e.relabel ρ).freeSymbols = e.freeSymbols.map ρ := by simp [Expr.freeSymbols]

theorem map_dim_relabel (free : List BoundIndex) :
    (free.map (BoundIndex.relabel ρ)).map BoundIndex.dim = free.map BoundIndex.dim := by
  simp [BoundIndex.relabel, BoundIndex.renamed]

/-- Components are found by position, so names do not matter to them. -/
theorem Expr.component_relabel [Scalar α] (m : Memory α) (e : Expr α) :
    (e.relabel ρ).component m = e.component m := by
  induction e with
  | leaf plan => rfl
  | evaluated free array =>
    funext values
    simp only [relabel, component, map_dim_relabel]
  | sum op left right plan ihl ihr =>
    funext values
    simp only [relabel, component, ihl, ihr]
  | scaled op inner scalar ih =>
    funext values
    simp only [relabel, component, ih]
  | product left right plan ihl ihr =>
    funext values
    simp only [relabel, component, ihl, ihr, rank_relabel]
  | bundle inner plan ih | split inner plan ih | embed inner plan ih | coembed inner plan ih =>
    funext values
    simp only [relabel, component, ih, rank_relabel]

/-! ### The symbols of a tree -/

namespace Expr

/-- Every symbol written, free or used at a node of the tree. -/
def mentioned : Expr α → List Index
  | .leaf plan => plan.written ++ (symbols plan.free ++ plan.used)
  | .evaluated free _ => symbols free
  | .sum _ left right plan => left.mentioned ++ right.mentioned ++ plan.used
  | .scaled _ inner _ => inner.mentioned
  | .product left right plan => left.mentioned ++ right.mentioned ++ (symbols plan.free ++ plan.used)
  | .bundle inner plan => symbols plan.free ++ inner.mentioned
  | .split inner plan => symbols plan.free ++ inner.mentioned
  | .embed inner plan => symbols plan.free ++ inner.mentioned
  | .coembed inner plan => symbols plan.free ++ inner.mentioned

theorem mentioned_of_free {e : Expr α} {i : Index} (hi : i ∈ symbols e.free) : i ∈ e.mentioned := by
  induction e with
  | leaf plan => exact List.mem_append_right _ (List.mem_append_left _ hi)
  | evaluated free array => exact hi
  | sum op left right plan ihl => exact List.mem_append_left _ (List.mem_append_left _ (ihl hi))
  | scaled op inner scalar ih => exact ih hi
  | product left right plan => exact List.mem_append_right _ (List.mem_append_left _ hi)
  | bundle inner plan | split inner plan | embed inner plan | coembed inner plan =>
    exact List.mem_append_left _ hi

theorem mentioned_of_used {e : Expr α} {i : Index} (hi : i ∈ e.used) : i ∈ e.mentioned := by
  induction e with
  | leaf plan => exact List.mem_append_right _ (List.mem_append_right _ hi)
  | evaluated free array => cases hi
  | sum op left right plan => exact List.mem_append_right _ hi
  | scaled op inner scalar ih => exact ih hi
  | product left right plan => exact List.mem_append_right _ (List.mem_append_right _ hi)
  | bundle inner plan ih | split inner plan ih | embed inner plan ih | coembed inner plan ih =>
    exact List.mem_append_right _ (ih hi)

end Expr

/-! ### The constructors do not notice -/

section Injective
variable {ρ} {left right e : Expr α} {free : List BoundIndex} {b : BoundIndex}

theorem findIdx?_relabel (hρ : ρ.Injective) :
    ((free.map (BoundIndex.relabel ρ)).findIdx? fun c => c.index == (b.relabel ρ).index) =
      free.findIdx? fun c => c.index == b.index := by
  rw [List.findIdx?_map]
  congr 1
  funext c
  rw [Bool.eq_iff_iff]
  simp [BoundIndex.relabel, BoundIndex.renamed, hρ.eq_iff]

theorem matchOne_relabel (hρ : ρ.Injective) {expected found : List BoundIndex} {p : Nat}
    (h : matchOne expected found b = .ok p) :
    matchOne (expected.map (BoundIndex.relabel ρ)) (found.map (BoundIndex.relabel ρ)) (b.relabel ρ) =
      .ok p := by
  unfold matchOne at h ⊢
  rw [findIdx?_relabel hρ]
  cases hq : expected.findIdx? fun c => c.index == b.index with
  | none =>
    rw [hq] at h
    cases h
  | some q =>
    simp only [hq, List.getElem?_map] at h ⊢
    cases hc : expected[q]? with
    | none =>
      rw [hc] at h
      cases h
    | some c =>
      rw [hc] at h
      -- the errors name symbols and would differ, but the check went through
      by_cases hfactor : c.factor = b.factor
      · simp only [if_pos hfactor] at h
        cases h
        exact if_pos hfactor
      · simp only [if_neg hfactor] at h
        cases h

theorem matchFree_relabel (hρ : ρ.Injective) {expected found : List BoundIndex} {ps : List Nat}
    (h : matchFree expected found = .ok ps) :
    matchFree (expected.map (BoundIndex.relabel ρ)) (found.map (BoundIndex.relabel ρ)) = .ok ps := by
  unfold matchFree at h ⊢
  simp only [List.length_map, symbols_relabel, Occurrence.sameElements_map hρ]
  split at h
  · cases h
  · next hsame =>
    rw [if_neg hsame, mapM_eq_ok, List.forall₂_map_left_iff]
    exact (mapM_eq_ok.1 h).imp fun b p hp => matchOne_relabel hρ hp

theorem contractOne_relabel (hρ : ρ.Injective) {partner : Option Nat}
    (h : Expr.contractOne free b = .ok partner) :
    Expr.contractOne (free.map (BoundIndex.relabel ρ)) (b.relabel ρ) = .ok partner := by
  unfold Expr.contractOne at h ⊢
  rw [findIdx?_relabel hρ]
  cases hq : free.findIdx? fun c => c.index == b.index with
  | none =>
    rw [hq] at h
    exact h
  | some q =>
    simp only [hq, List.getElem?_map] at h ⊢
    cases hc : free[q]? with
    | none =>
      rw [hc] at h
      exact h
    | some c =>
      rw [hc] at h
      by_cases hdual : b.factor.isDualOf c.factor
      · simp only [if_pos hdual] at h
        cases h
        exact if_pos hdual
      · simp only [if_neg hdual] at h
        cases h

namespace Expr

theorem checkReuse_relabel (hρ : ρ.Injective) (h : checkReuse left right = .ok ()) :
    checkReuse (left.relabel ρ) (right.relabel ρ) = .ok () := by
  unfold checkReuse at h ⊢
  rw [used_relabel, used_relabel, freeSymbols_relabel, freeSymbols_relabel, Occurrence.common_map hρ,
    Occurrence.common_map hρ, ← List.map_append]
  split at h
  · cases h
  · next hnil => rw [hnil]; rfl

theorem add_relabel {op : SumOp} (hρ : ρ.Injective) (h : add op left right = .ok e) :
    add op (left.relabel ρ) (right.relabel ρ) = .ok (e.relabel ρ) := by
  unfold add at h ⊢
  obtain ⟨⟨⟩, hreuse, h⟩ := bind_eq_ok.1 h
  obtain ⟨ps, hmatch, h⟩ := bind_eq_ok.1 h
  cases h
  rw [checkReuse_relabel hρ hreuse, ok_bind, free_relabel, free_relabel, matchFree_relabel hρ hmatch,
    ok_bind, used_relabel, used_relabel, ← List.map_append, Occurrence.distinct_map hρ]
  rfl

/-! A product looks at its left indices as rows of an index, the position of its partner if it has one,
and its own position. Only the first of the three changes. -/

section Rows
variable (rows : List ((BoundIndex × Option Nat) × Nat))

def relabelRow (ρ : Index → Index) (row : (BoundIndex × Option Nat) × Nat) :
    (BoundIndex × Option Nat) × Nat :=
  ((row.1.1.relabel ρ, row.1.2), row.2)

theorem zipIdx_relabel (partners : List (Option Nat)) :
    ((free.map (BoundIndex.relabel ρ)).zip partners).zipIdx =
      (free.zip partners).zipIdx.map (relabelRow ρ) := by
  rw [List.zip_map_left, List.zipIdx_map]
  rfl

theorem summed_relabel : (rows.map (relabelRow ρ)).filterMap
    (fun ((_, partner), p) => partner.map fun q => (p, q)) =
      rows.filterMap (fun ((_, partner), p) => partner.map fun q => (p, q)) := by
  rw [List.filterMap_map]
  rfl

theorem contracted_relabel : (rows.map (relabelRow ρ)).filterMap
    (fun ((b, partner), _) => partner.map fun _ => b) =
      (rows.filterMap fun ((b, partner), _) => partner.map fun _ => b).map (BoundIndex.relabel ρ) := by
  rw [List.filterMap_map, List.map_filterMap]
  refine List.filterMap_congr ?_
  rintro ⟨⟨b, partner⟩, p⟩ -
  cases partner <;> rfl

theorem leftFree_relabel : (rows.map (relabelRow ρ)).filterMap
    (fun ((b, partner), p) => if partner.isNone then some (b, Side.left, p) else none) =
      (rows.filterMap fun ((b, partner), p) =>
        if partner.isNone then some (b, Side.left, p) else none).map (Prod.map (BoundIndex.relabel ρ) id) := by
  rw [List.filterMap_map, List.map_filterMap]
  refine List.filterMap_congr ?_
  rintro ⟨⟨b, partner⟩, p⟩ -
  cases partner <;> rfl

theorem rightFree_relabel (summed : List (Nat × Nat)) :
    ((free.map (BoundIndex.relabel ρ)).zipIdx.filterMap fun (b, q) =>
      if summed.all fun pair => pair.2 != q then some (b, Side.right, q) else none) =
      (free.zipIdx.filterMap fun (b, q) =>
        if summed.all fun pair => pair.2 != q then some (b, Side.right, q) else none).map
          (Prod.map (BoundIndex.relabel ρ) id) := by
  rw [List.zipIdx_map, List.filterMap_map, List.map_filterMap]
  refine List.filterMap_congr ?_
  rintro ⟨b, q⟩ -
  by_cases hq : summed.all fun pair => pair.2 != q
  · simp [hq]
  · simp [hq]

end Rows

theorem mul_relabel (hρ : ρ.Injective) (h : left.mul right = .ok e) :
    (left.relabel ρ).mul (right.relabel ρ) = .ok (e.relabel ρ) := by
  unfold mul at h ⊢
  obtain ⟨⟨⟩, hreuse, h⟩ := bind_eq_ok.1 h
  obtain ⟨partners, hpartners, h⟩ := bind_eq_ok.1 h
  -- partners are found by symbol but kept by position, so they are the same ones
  have hpartners' : ((left.relabel ρ).free.mapM (contractOne (right.relabel ρ).free)) = .ok partners := by
    rw [free_relabel, free_relabel, mapM_eq_ok, List.forall₂_map_left_iff]
    exact (mapM_eq_ok.1 hpartners).imp fun b p hp => contractOne_relabel hρ hp
  rw [checkReuse_relabel hρ hreuse, ok_bind, hpartners', ok_bind]
  dsimp only at h ⊢
  obtain ⟨⟨⟩, hrank, h⟩ := bind_eq_ok.1 h
  obtain ⟨⟨⟩, hextents, h⟩ := bind_eq_ok.1 h
  cases h
  rw [free_relabel, free_relabel, zipIdx_relabel, summed_relabel, contracted_relabel, leftFree_relabel,
    rightFree_relabel, ← List.map_append, List.length_map, hrank, ok_bind, map_dim_relabel, hextents, ok_bind,
    used_relabel, used_relabel, symbols_relabel, ← List.map_append, ← List.map_append,
    Occurrence.distinct_map hρ]
  simp only [relabel, List.map_map]
  rfl

/-- Each sum and product in the tree is what its constructor makes of its operands. -/
def Consistent : Expr α → Prop
  | .leaf _ | .evaluated _ _ => True
  | .sum op left right plan =>
    left.Consistent ∧ right.Consistent ∧ add op left right = .ok (.sum op left right plan)
  | .scaled _ inner _ => inner.Consistent
  | .product left right plan =>
    left.Consistent ∧ right.Consistent ∧ left.mul right = .ok (.product left right plan)
  | .bundle inner _ | .split inner _ | .embed inner _ | .coembed inner _ => inner.Consistent

theorem Consistent.relabel (hρ : ρ.Injective) (he : e.Consistent) : (e.relabel ρ).Consistent := by
  induction e with
  | leaf plan => trivial
  | evaluated free array => trivial
  | sum op left right plan ihl ihr =>
    obtain ⟨hleft, hright, hadd⟩ := he
    exact ⟨ihl hleft, ihr hright, add_relabel hρ hadd⟩
  | scaled op inner scalar ih => exact ih he
  | product left right plan ihl ihr =>
    obtain ⟨hleft, hright, hmul⟩ := he
    exact ⟨ihl hleft, ihr hright, mul_relabel hρ hmul⟩
  | bundle inner plan ih | split inner plan ih | embed inner plan ih | coembed inner plan ih => exact ih he

end Expr

end Injective

end TensorCalculus
