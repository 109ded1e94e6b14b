import Mathlib.Algebra.BigOperators.Ring.List
import Mathlib.Algebra.Ring.MinimalAxioms
import Mathlib.Tactic.Ring
import TensorCalculus.Proofs.Checked
import TensorCalculus.Scalar

/-!
# Exact scalars

Scalars whose operations obey laws of algebra: those of a commutative ring (`Scalar.IsCommRing`), or only
those of a ring, a semiring or a commutative semiring (`Scalar.IsRing`, `Scalar.IsSemiring`,
`Scalar.IsCommSemiring`, with a neutral element of the product `Scalar.IsUnitalCommSemiring`). For such
scalars a loop that adds up values gives their sum, in whatever order it goes through them
(`foldlM_eq_sum`). The integers are an example of all of them.
-/

namespace TensorCalculus

namespace Scalar

/-- The operations are those of a commutative ring. -/
class IsCommRing (α : Type) [Scalar α] : Prop where
  add_assoc : ∀ x y z : α, x + y + z = x + (y + z)
  zero_add : ∀ x : α, 0 + x = x
  neg_add_cancel : ∀ x : α, -x + x = 0
  sub_eq_add_neg : ∀ x y : α, x - y = x + -y
  mul_assoc : ∀ x y z : α, x * y * z = x * (y * z)
  mul_comm : ∀ x y : α, x * y = y * x
  one_mul : ∀ x : α, 1 * x = x
  mul_add : ∀ x y z : α, x * (y + z) = x * y + x * z

open IsCommRing in
/-- The ring, for the lemmas on rings. -/
abbrev commRing (α : Type) [Scalar α] [IsCommRing α] : CommRing α :=
  { CommRing.ofMinimalAxioms (R := α) add_assoc zero_add neg_add_cancel mul_assoc mul_comm one_mul mul_add with
    sub := Sub.sub
    sub_eq_add_neg := sub_eq_add_neg }

/-- The operations are those of a semiring. A neutral element of the product is not asked for. -/
class IsSemiring (α : Type) [Scalar α] : Prop where
  add_assoc : ∀ x y z : α, x + y + z = x + (y + z)
  add_comm : ∀ x y : α, x + y = y + x
  zero_add : ∀ x : α, 0 + x = x
  mul_assoc : ∀ x y z : α, x * y * z = x * (y * z)
  mul_add : ∀ x y z : α, x * (y + z) = x * y + x * z
  add_mul : ∀ x y z : α, (x + y) * z = x * z + y * z
  zero_mul : ∀ x : α, 0 * x = 0
  mul_zero : ∀ x : α, x * 0 = 0

class IsCommSemiring (α : Type) [Scalar α] : Prop extends IsSemiring α where
  mul_comm : ∀ x y : α, x * y = y * x

class IsUnitalCommSemiring (α : Type) [Scalar α] : Prop extends IsCommSemiring α where
  one_mul : ∀ x : α, 1 * x = x

class IsRing (α : Type) [Scalar α] : Prop extends IsSemiring α where
  neg_add_cancel : ∀ x : α, -x + x = 0
  sub_eq_add_neg : ∀ x y : α, x - y = x + -y

open IsSemiring in
/-- The semiring, for the lemmas on semirings. -/
abbrev semiring (α : Type) [Scalar α] [IsSemiring α] : NonUnitalSemiring α where
  add_assoc := add_assoc
  add_comm := add_comm
  zero_add := zero_add
  add_zero x := (add_comm x 0).trans (zero_add x)
  nsmul := nsmulRec
  mul_assoc := mul_assoc
  left_distrib := mul_add
  right_distrib := add_mul
  zero_mul := zero_mul
  mul_zero := mul_zero

open IsCommSemiring IsUnitalCommSemiring in
abbrev commSemiring (α : Type) [Scalar α] [IsUnitalCommSemiring α] : CommSemiring α :=
  { semiring α with
    one_mul := one_mul
    mul_one := fun x => (mul_comm x 1).trans (one_mul x)
    mul_comm := mul_comm }

open IsRing in
abbrev ring (α : Type) [Scalar α] [IsRing α] : NonUnitalRing α :=
  { semiring α with
    sub := Sub.sub
    sub_eq_add_neg := sub_eq_add_neg
    neg_add_cancel := neg_add_cancel
    zsmul := zsmulRec }

section CommRing
variable {α : Type} [Scalar α] [IsCommRing α]

instance : IsCommSemiring α :=
  let _ : CommRing α := commRing α
  { add_assoc, add_comm, zero_add, mul_assoc, mul_add, add_mul, zero_mul, mul_zero, mul_comm }

instance : IsUnitalCommSemiring α := ⟨IsCommRing.one_mul⟩

instance : IsRing α :=
  let _ : CommRing α := commRing α
  { neg_add_cancel, sub_eq_add_neg }

end CommRing

instance : Scalar Int where
  ofDouble x := x.toInt?.getD 0

instance : IsCommRing Int where
  add_assoc := Int.add_assoc
  zero_add := Int.zero_add
  neg_add_cancel := Int.add_left_neg
  sub_eq_add_neg _ _ := Int.sub_eq_add_neg
  mul_assoc := Int.mul_assoc
  mul_comm := Int.mul_comm
  one_mul := Int.one_mul
  mul_add := Int.mul_add

end Scalar

section Sum
variable {α β : Type}

/-- A loop that adds a value in each step. -/
theorem foldlM_eq_sum [AddMonoid α] {xs : List β} {step : α → β → Checked α} {g : β → α}
    (h : ∀ x ∈ xs, ∀ a, step a x = .ok (a + g x)) (a : α) :
    xs.foldlM step a = .ok (a + (xs.map g).sum) := by
  induction xs generalizing a with
  | nil =>
    rw [List.map_nil, List.sum_nil, add_zero]
    rfl
  | cons x xs ih =>
    rw [List.foldlM_cons, h x (by simp), ok_bind, ih fun y hy => h y (by simp [hy]), List.map_cons,
      List.sum_cons, add_assoc]

variable [Scalar α]

/-- The sum of what a computation gives, in the order of the list and from zero. -/
def sumOn (xs : List β) (f : β → Checked α) : Checked α :=
  xs.foldlM (fun sum x => do return sum + (← f x)) 0

variable [Scalar.IsCommRing α]

attribute [local instance] Scalar.commRing

theorem sumOn_eq {xs : List β} {f : β → Checked α} {g : β → α} (h : ∀ x ∈ xs, f x = .ok (g x)) :
    sumOn xs f = .ok (xs.map g).sum := by
  rw [sumOn, foldlM_eq_sum (g := g) fun x hx a => by rw [h x hx]; rfl, zero_add]

end Sum

end TensorCalculus
