import TensorCalculus.Binary.Arithmetic

/-!
# Scalars

The component type of tensors: its operations, and the conversion of double precision coefficients.
No law is asked of them. Half precision numbers are computed with in single precision and rounded
back; a double becomes a half by way of single precision too, so it may be rounded twice.
-/

namespace TensorCalculus

class Scalar (α : Type) extends Zero α, One α, Add α, Sub α, Mul α, Div α, Neg α where
  ofDouble : Binary .double → α

namespace Binary

/-- An operation of single precision on half precision numbers. -/
def throughSingle (op : Binary .single → Binary .single → Binary .single)
    (x y : Binary .half) : Binary .half := (op x.convert y.convert).convert

end Binary

instance : Scalar (Binary .double) where
  zero := .ofInt 0
  one := .ofInt 1
  add := .add
  sub := .sub
  mul := .mul
  div := .div
  neg := .neg
  ofDouble x := x

instance : Scalar (Binary .single) where
  zero := .ofInt 0
  one := .ofInt 1
  add := .add
  sub := .sub
  mul := .mul
  div := .div
  neg := .neg
  ofDouble := .convert

instance : Scalar (Binary .half) where
  zero := .ofInt 0
  one := .ofInt 1
  add := .throughSingle .add
  sub := .throughSingle .sub
  mul := .throughSingle .mul
  div := .throughSingle .div
  neg := .neg
  ofDouble x := (x.convert : Binary .single).convert

end TensorCalculus
