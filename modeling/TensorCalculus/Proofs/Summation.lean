import Mathlib.Algebra.BigOperators.Ring.Finset
import TensorCalculus.Proofs.Acceptance
import TensorCalculus.Proofs.ExactScalar
import TensorCalculus.Proofs.Safety

/-!
# Sums over the values of symbols

`sumAll extent is g env` adds up `g` over all values of the symbols `is`. It does not depend on the order
of the symbols (`sumAll_perm`), and sums over some symbols and then over others are one sum over all of
them (`sumAll_append`). Where a product of expressions has a component, this is the sum of the products of
the components of its operands (`Sound.componentAt_mul`).
-/

namespace TensorCalculus

/-- The sum of `g` over all values of the symbols below their extents. -/
def sumAll {M : Type} [AddCommMonoid M] (extent : Index → Nat) :
    List Index → (Assignment → M) → Assignment → M
  | [], g, env => g env
  | i :: is, g, env => ∑ v ∈ Finset.range (extent i), sumAll extent is g (Function.update env i v)

/-- The second assignment has values in range for the symbols `is`, and agrees with the first one
elsewhere. -/
structure Varies (extent : Index → Nat) (is : List Index) (env env' : Assignment) : Prop where
  lt : ∀ i ∈ is, env' i < extent i
  eq : ∀ i ∉ is, env' i = env i

section Varies
variable {extent : Index → Nat} {is : List Index} {env env' : Assignment}

theorem Varies.cons {i : Index} {v : Nat} (hv : v < extent i)
    (h : Varies extent is (Function.update env i v) env') : Varies extent (i :: is) env env' := by
  constructor
  · intro j hj
    by_cases hmem : j ∈ is
    · exact h.lt j hmem
    · obtain rfl : j = i := by simpa [hmem] using hj
      rw [h.eq j hmem, Function.update_self]
      exact hv
  · intro j hj
    rw [List.mem_cons, not_or] at hj
    rw [h.eq j hj.2, Function.update_of_ne hj.1]

theorem varies_extend (hnodup : is.Nodup) {values : List Nat} (h : Box.InBox values (is.map extent)) :
    Varies extent is env (env.extend is values) :=
  ⟨fun _ hi => extend_lt hnodup h hi, fun _ hi => Assignment.extend_of_not_mem hi⟩

/-- The values of the symbols that vary make a multi-index. -/
theorem Varies.exists_extend (h : Varies extent is env env') (hnodup : is.Nodup) :
    ∃ values, Box.InBox values (is.map extent) ∧ env.extend is values = env' := by
  refine ⟨is.map env', ?_, ?_⟩
  · rw [Box.InBox, List.forall₂_map_left_iff, List.forall₂_map_right_iff, List.forall₂_same]
    exact h.lt
  · funext i
    by_cases hi : i ∈ is
    · have hsame : env.extend is (is.map env') i = Assignment.extend env' is (is.map env') i :=
        Assignment.extend_congr hnodup (by simp) hi
      rw [hsame, Assignment.extend_map_self]
    · rw [Assignment.extend_of_not_mem hi, h.eq i hi]

theorem Assignment.extend_cons {i : Index} {v : Nat} {values : List Nat} (hi : i ∉ is) :
    env.extend (i :: is) (v :: values) = Assignment.extend (Function.update env i v) is values := by
  funext j
  by_cases hji : j = i
  · subst hji
    rw [extend_of_not_mem hi, Function.update_self]
    simp [extend]
  · rw [extend_cons_of_ne hji, extend, extend, Function.update_of_ne hji]

end Varies

/-! ### Laws of sums -/

section SumAll
variable {M : Type} {extent extent' : Index → Nat} {is js : List Index} {env : Assignment}

section AddCommMonoid
variable [AddCommMonoid M] {g h : Assignment → M}

theorem sumAll_append : sumAll extent (is ++ js) g env = sumAll extent is (sumAll extent js g) env := by
  induction is generalizing env with
  | nil => rfl
  | cons i is ih => exact Finset.sum_congr rfl fun v _ => ih

theorem sumAll_perm (hperm : is.Perm js) : sumAll extent is g env = sumAll extent js g env := by
  induction hperm generalizing env with
  | nil => rfl
  | cons i _ ih => exact Finset.sum_congr rfl fun v _ => ih
  | swap i j is =>
    simp only [sumAll]
    by_cases hij : i = j
    · rw [hij]
    · rw [Finset.sum_comm]
      simp only [Function.update_comm hij]
  | trans _ _ ih ih' => exact ih.trans ih'

theorem sumAll_congr (hextent : ∀ i ∈ is, extent i = extent' i)
    (hg : ∀ env', Varies extent is env env' → g env' = h env') :
    sumAll extent is g env = sumAll extent' is h env := by
  induction is generalizing env with
  | nil => exact hg env ⟨by simp, fun _ _ => rfl⟩
  | cons i is ih =>
    rw [sumAll, sumAll, ← hextent i (by simp)]
    refine Finset.sum_congr rfl fun v hv => ih (fun j hj => hextent j (by simp [hj])) fun env' henv' => ?_
    exact hg env' (henv'.cons (Finset.mem_range.1 hv))

theorem sumAll_add : sumAll extent is (fun env => g env + h env) env =
    sumAll extent is g env + sumAll extent is h env := by
  induction is generalizing env with
  | nil => rfl
  | cons i is ih =>
    simp only [sumAll, ih]
    exact Finset.sum_add_distrib

/-- The sum over a box in row-major order. -/
theorem sum_map_multiIndices (hnodup : is.Nodup) :
    ((Box.multiIndices (is.map extent)).map fun values => g (env.extend is values)).sum =
      sumAll extent is g env := by
  induction is generalizing env with
  | nil =>
    show g (env.extend [] []) + 0 = g env
    rw [add_zero]
    rfl
  | cons i is ih =>
    obtain ⟨hi, his⟩ := List.nodup_cons.1 hnodup
    simp only [List.map_cons, Box.multiIndices, List.map_flatMap, List.map_map, Function.comp_def,
      Assignment.extend_cons hi]
    rw [List.flatMap, List.sum_flatten, List.map_map]
    simp only [Function.comp_def, ih his]
    rfl

end AddCommMonoid

theorem sumAll_sub [AddCommGroup M] {g h : Assignment → M} :
    sumAll extent is (fun env => g env - h env) env = sumAll extent is g env - sumAll extent is h env := by
  induction is generalizing env with
  | nil => rfl
  | cons i is ih =>
    simp only [sumAll, ih]
    exact Finset.sum_sub_distrib ..

section Semiring
variable [NonUnitalNonAssocSemiring M] {g : Assignment → M}

theorem sumAll_mul (c : M) : sumAll extent is g env * c = sumAll extent is (fun env => g env * c) env := by
  induction is generalizing env with
  | nil => rfl
  | cons i is ih => simp only [sumAll, Finset.sum_mul, ih]

theorem mul_sumAll (c : M) : c * sumAll extent is g env = sumAll extent is (fun env => c * g env) env := by
  induction is generalizing env with
  | nil => rfl
  | cons i is ih => simp only [sumAll, Finset.mul_sum, ih]

end Semiring

end SumAll

/-! ### Components as sums -/

section Terms
variable {α β : Type} [Scalar α]

/-- A loop that adds up values has met no fault if it gives one. -/
theorem terms_of_foldlM {xs : List β} {f : β → Checked α} {a b : α}
    (h : xs.foldlM (fun sum x => do return sum + (← f x)) a = .ok b) : ∀ x ∈ xs, ∃ y, f x = .ok y := by
  induction xs generalizing a with
  | nil => simp
  | cons x xs ih =>
    rw [List.foldlM_cons] at h
    obtain ⟨a', ha', h⟩ := bind_eq_ok.1 h
    obtain ⟨y, hy, -⟩ := bind_eq_ok.1 ha'
    exact List.forall_mem_cons.2 ⟨⟨y, hy⟩, ih h⟩

variable {names : List Index} {extent : Index → Nat} {f : Assignment → Checked α} {env : Assignment}

theorem terms_of_sumOver (hnodup : names.Nodup) {x : α}
    (h : sumOver names (names.map extent) f env = .ok x) :
    ∀ env', Varies extent names env env' → ∃ y, f env' = .ok y := by
  intro env' henv'
  obtain ⟨values, hvalues, rfl⟩ := henv'.exists_extend hnodup
  unfold sumOver at h
  split at h
  · next hnil =>
    obtain rfl := List.isEmpty_iff.1 hnil
    exact ⟨x, h⟩
  · exact terms_of_foldlM h values (Box.mem_multiIndices.2 hvalues)

variable [Scalar.IsSemiring α]

attribute [local instance] Scalar.semiring

theorem sumOver_eq (hnodup : names.Nodup) {g : Assignment → α}
    (h : ∀ env', Varies extent names env env' → f env' = .ok (g env')) :
    sumOver names (names.map extent) f env = .ok (sumAll extent names g env) := by
  unfold sumOver
  split
  · next hnil =>
    obtain rfl := List.isEmpty_iff.1 hnil
    exact h env ⟨by simp, fun _ _ => rfl⟩
  · have hterm : ∀ values ∈ Box.multiIndices (names.map extent),
        f (env.extend names values) = .ok (g (env.extend names values)) := fun values hvalues =>
      h _ (varies_extend hnodup (Box.mem_multiIndices.1 hvalues))
    rw [foldlM_eq_sum (g := fun values => g (env.extend names values))
      fun values hvalues a => by rw [hterm values hvalues]; rfl, zero_add, sum_map_multiIndices hnodup]

end Terms

/-- What a sum or difference does to two values. -/
def SumOp.apply {α : Type} [Scalar α] (op : SumOp) (x y : α) : α :=
  match op with
  | .plus => x + y
  | .minus => x - y

section Ring
variable {α : Type} [Scalar α] [Scalar.IsRing α] {op : SumOp}

attribute [local instance] Scalar.semiring

theorem SumOp.apply_mul (x y z : α) : op.apply x y * z = op.apply (x * z) (y * z) := by
  let _ : NonUnitalRing α := Scalar.ring α
  cases op with
  | plus => exact add_mul x y z
  | minus => exact sub_mul x y z

theorem SumOp.apply_sumAll {extent : Index → Nat} {is : List Index} {g h : Assignment → α} {env : Assignment} :
    op.apply (sumAll extent is g env) (sumAll extent is h env) =
      sumAll extent is (fun env => op.apply (g env) (h env)) env := by
  let _ : NonUnitalRing α := Scalar.ring α
  cases op with
  | plus => exact sumAll_add.symm
  | minus => exact sumAll_sub.symm

end Ring

namespace Expr
variable {α : Type} [Scalar α] {m : Memory α} {e left right : Expr α} {env env' : Assignment} {x : α}

/-- The component at the values of the free symbols, or zero if there is none. -/
def valueAt (m : Memory α) (e : Expr α) (env : Assignment) : α :=
  match e.componentAt m env with
  | .ok x => x
  | .error _ => 0

theorem valueAt_eq (h : e.componentAt m env = .ok x) : e.valueAt m env = x := by
  rw [valueAt, h]

/-- Only the values of the free symbols matter. -/
theorem valueAt_congr (h : ∀ i ∈ symbols e.free, env i = env' i) : e.valueAt m env = e.valueAt m env' := by
  rw [valueAt, valueAt, componentAt, componentAt, List.map_congr_left h]

theorem Sound.componentAt_add (hleft : left.Sound) {op : SumOp}
    (h : Expr.add op left right = .ok e) (hx : e.componentAt m env = .ok x) :
    x = op.apply (left.valueAt m env) (right.valueAt m env) ∧
      (∃ y, left.componentAt m env = .ok y) ∧ ∃ z, right.componentAt m env = .ok z := by
  obtain ⟨plan, rfl, hplan⟩ := add_eq_ok h
  rw [componentAt_sum m env hplan hleft.toWellFormed] at hx
  obtain ⟨y, hy, hx⟩ := bind_eq_ok.1 hx
  obtain ⟨z, hz, hx⟩ := bind_eq_ok.1 hx
  refine ⟨?_, ⟨y, hy⟩, ⟨z, hz⟩⟩
  rw [valueAt_eq hy, valueAt_eq hz]
  cases op <;> exact (Except.ok.inj hx).symm

/-- The symbols that a product contracts, in the order of the left operand. -/
def shared (left right : Expr α) : List Index :=
  Occurrence.common (symbols left.free) (symbols right.free)

section Product
variable [Scalar.IsSemiring α]

attribute [local instance] Scalar.semiring

theorem Sound.componentAt_mul (hleft : left.Sound) (hright : right.Sound)
    (h : left.mul right = .ok e) (hx : e.componentAt m env = .ok x) :
    x = sumAll (extentOf left.free) (shared left right)
        (fun env => left.valueAt m env * right.valueAt m env) env ∧
      ∀ env', Varies (extentOf left.free) (shared left right) env env' →
        (∃ y, left.componentAt m env' = .ok y) ∧ ∃ z, right.componentAt m env' = .ok z := by
  have hnodup : (shared left right).Nodup := hleft.nodup.filter _
  obtain ⟨plan, rfl, hplan⟩ := mul_eq_ok h hleft.nodup hright.nodup
  rw [componentAt_product m env hplan hleft.toWellFormed hright.toWellFormed] at hx
  have hterms : ∀ env', Varies (extentOf left.free) (shared left right) env env' →
      (∃ y, left.componentAt m env' = .ok y) ∧ ∃ z, right.componentAt m env' = .ok z := by
    intro env' henv'
    obtain ⟨y, hy⟩ := terms_of_sumOver hnodup hx env' henv'
    obtain ⟨u, hu, hy⟩ := bind_eq_ok.1 hy
    obtain ⟨v, hv, -⟩ := bind_eq_ok.1 hy
    exact ⟨⟨u, hu⟩, v, hv⟩
  refine ⟨Except.ok.inj (hx.symm.trans (sumOver_eq hnodup fun env' henv' => ?_)), hterms⟩
  obtain ⟨⟨y, hy⟩, z, hz⟩ := hterms env' henv'
  rw [valueAt_eq hy, valueAt_eq hz, hy, hz]
  rfl

end Product

end Expr

end TensorCalculus
