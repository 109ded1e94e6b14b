import TensorCalculus.Concept.Query
import TensorCalculus.Power.Tuple

/-!
# The families of concepts

Fields, vector spaces, bases, products, sums and powers. A product, sum or power of based vector
spaces is described twice: as a product, sum or power of its arguments, and as a based vector space of
the dimension that follows from theirs. Both descriptions are its parents.
-/

namespace TensorCalculus

def PowerKind.shape : PowerKind → Structure
  | .symmetric => .symmetricPower
  | .exterior => .exteriorPower

def PowerKind.basedShape : PowerKind → Structure
  | .symmetric => .basedSymmetricPower
  | .exterior => .basedExteriorPower

/-- The kind of power that a structure denotes. -/
def PowerKind.of? : Structure → Option PowerKind
  | .symmetricPower | .basedSymmetricPower => some .symmetric
  | .exteriorPower | .basedExteriorPower => some .exterior
  | _ => none

namespace Concept

def field (tag : Tag) : Concept := .mk .field [] [.mk .id (.tag tag)]

def vectorSpace (scalars : Concept) (dimension : Nat) (id : PropertyValue) : Concept :=
  .mk .vectorSpace [] [.mk .field (.concept scalars), .mk .dimension (.count dimension), .mk .id id]

def basis (id : PropertyValue) : Concept := .mk .basis [] [.mk .id id]

/-- An orthonormal basis is a basis with the same identity. -/
def orthonormalBasis (id : PropertyValue) : Concept := .mk .orthonormalBasis [basis id] []

def basedVectorSpace (space basis : Concept) : Concept :=
  .mk .basedVectorSpace [space] [.mk .basis (.concept basis)]

def tensorProduct (factors : List Concept) : Concept :=
  .mk .tensorProduct [] [.mk .factors (.typle factors)]

def directSum (summands : List Concept) : Concept :=
  .mk .directSum [] [.mk .summands (.typle summands)]

def power (kind : PowerKind) (factor : Concept) (degree : Nat) : Concept :=
  .mk kind.shape [] [.mk .factor (.concept factor), .mk .degree (.count degree)]

/-- Refuses a space that is over another field. -/
def checkField (scalars space : Concept) : Except ConceptError Unit := do
  let other ← space.scalarField
  if other = scalars then .ok () else .error (.fieldMismatch scalars other)

/-- The field that all the spaces are over; `shape` asks for it. -/
def commonField (shape : Structure) : List Concept → Except ConceptError Concept
  | [] => .error (.empty shape)
  | first :: rest => do
    let scalars ← first.scalarField
    rest.forM (checkField scalars)
    return scalars

/-- Combines the dimensions of the spaces from the left. -/
def foldDimensions (combine : Nat → Nat → Checked Nat) (unit : Nat) (spaces : List Concept) :
    Outcome ConceptError Nat :=
  spaces.foldlM (fun acc space => do combine acc (← space.dimension)) unit

/-- The vector spaces that the spaces are, and the bases chosen in them. -/
def splitBased (spaces : List Concept) : Except ConceptError (List Concept × List Concept) := do
  return (← spaces.mapM StructureClass.vectorSpace.uniqueOf, ← spaces.mapM chosenBasis)

/-- The based vector space whose space and basis are identified by concepts. -/
def identified (scalars : Concept) (dimension : Nat) (spaceId basisId : Concept) : Concept :=
  basedVectorSpace (vectorSpace scalars dimension (.concept spaceId)) (basis (.concept basisId))

/-- The tensor product of based vector spaces over one field. -/
def basedTensorProduct (factors : List Concept) : Outcome ConceptError Concept := do
  let scalars ← commonField .basedTensorProduct factors
  let dimension ← foldDimensions Count.mul 1 factors
  let (spaces, bases) ← splitBased factors
  return .mk .basedTensorProduct
    [tensorProduct factors,
      identified scalars dimension (tensorProduct spaces) (tensorProduct bases)] []

/-- The direct sum of based vector spaces over one field. -/
def basedDirectSum (summands : List Concept) : Outcome ConceptError Concept := do
  let scalars ← commonField .basedDirectSum summands
  let dimension ← foldDimensions Count.add 0 summands
  let (spaces, bases) ← splitBased summands
  return .mk .basedDirectSum
    [directSum summands, identified scalars dimension (directSum spaces) (directSum bases)] []

/-- The symmetric or exterior power of a based vector space. -/
def basedPower (kind : PowerKind) (factor : Concept) (degree : Nat) :
    Outcome ConceptError Concept := do
  let scalars ← factor.scalarField
  let dimension ← kind.dimension (← factor.dimension) degree
  let space ← StructureClass.vectorSpace.uniqueOf factor
  let basis ← factor.chosenBasis
  return .mk kind.basedShape
    [power kind factor degree,
      identified scalars dimension (power kind space degree) (power kind basis degree)] []

/-- What written indices range over: the factors of a tensor product of based vector spaces, or the
space itself. -/
def indexedFactors (c : Concept) : Except ConceptError (List Concept) := do
  if StructureClass.basedTensorProduct.hasUnique c then
    (← StructureClass.basedTensorProduct.uniqueOf c).factorList
  else return [c]

end Concept

end TensorCalculus
