import TensorCalculus.Concept.Family

/-!
# Spaces

A `Space` is a based vector space as it is put together: from spaces with a chosen basis, by tensor
products, direct sums and powers. Its dimension and its dual are read off how it is put together;
`Space.concept` describes it.
-/

namespace TensorCalculus

inductive Space where
  /-- A space of the given dimension over a field, with a basis. -/
  | based (scalars : Tag) (dimension : Nat) (tag : Tag) (orthonormal : Bool) (basisTag : Tag)
  | product (factors : List Space)
  | sum (summands : List Space)
  | power (kind : PowerKind) (degree : Nat) (factor : Space)

namespace Space

mutual

def dimension : Space → Checked Nat
  | .based _ n _ _ _ => .ok n
  | .product factors => dimensionProduct 1 factors
  | .sum summands => dimensionSum 0 summands
  | .power kind degree factor => do kind.dimension (← factor.dimension) degree

/-- The dimensions multiplied onto `acc` from the left. -/
def dimensionProduct (acc : Nat) : List Space → Checked Nat
  | [] => .ok acc
  | s :: ss => do dimensionProduct (← Count.mul acc (← s.dimension)) ss

/-- The dimensions added onto `acc` from the left. -/
def dimensionSum (acc : Nat) : List Space → Checked Nat
  | [] => .ok acc
  | s :: ss => do dimensionSum (← Count.add acc (← s.dimension)) ss

end

mutual

/-- The dual space, put together in the same way from duals. -/
def dual : Space → Space
  | .based scalars n tag orthonormal basisTag =>
    .based scalars n tag.opposite orthonormal basisTag.opposite
  | .product factors => .product (dualList factors)
  | .sum summands => .sum (dualList summands)
  | .power kind degree factor => .power kind degree factor.dual

def dualList : List Space → List Space
  | [] => []
  | s :: ss => s.dual :: dualList ss

end

mutual

/-- The concept that describes the space. -/
def concept : Space → Outcome ConceptError Concept
  | .based scalars n tag orthonormal basisTag =>
    let basis := if orthonormal then Concept.orthonormalBasis else Concept.basis
    .ok (.basedVectorSpace (.vectorSpace (.field scalars) n (.tag tag)) (basis (.tag basisTag)))
  | .product factors => do Concept.basedTensorProduct (← conceptList factors)
  | .sum summands => do Concept.basedDirectSum (← conceptList summands)
  | .power kind degree factor => do Concept.basedPower kind (← factor.concept) degree

def conceptList : List Space → Outcome ConceptError (List Concept)
  | [] => .ok []
  | s :: ss => do return (← s.concept) :: (← conceptList ss)

end

end Space

end TensorCalculus
