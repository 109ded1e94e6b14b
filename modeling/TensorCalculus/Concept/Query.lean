import TensorCalculus.Concept.Error
import TensorCalculus.Occurrence

/-!
# What a concept says of itself

A concept inherits from everything it specializes. A property has a value if the ancestors that state
it all state the same one; a structure is found if the ancestors of that structure are all the same
concept. Any test of concepts can be asked for (`Criterion`), and a `StructureClass` tests the structure.
-/

namespace TensorCalculus

mutual

/-- The concept, followed by the ancestors of its parents in turn, repetitions kept. -/
def Concept.ancestors : Concept → List Concept
  | .mk shape parents properties => .mk shape parents properties :: Concept.ancestorsList parents

def Concept.ancestorsList : List Concept → List Concept
  | [] => []
  | c :: cs => c.ancestors ++ Concept.ancestorsList cs

end

namespace PropertyValue

def count? : PropertyValue → Option Nat
  | .count n => some n
  | _ => none

def concept? : PropertyValue → Option Concept
  | .concept c => some c
  | _ => none

def typle? : PropertyValue → Option (List Concept)
  | .typle cs => some cs
  | _ => none

end PropertyValue

namespace Concept

/-- The ancestors other than the concept itself. -/
def properAncestors (c : Concept) : List Concept := ancestorsList c.parents

def distinctAncestors (c : Concept) : List Concept := Occurrence.distinct c.ancestors

/-- The value that the concept itself states. -/
def ownProperty? (c : Concept) (key : PropertyId) : Option PropertyValue :=
  (c.properties.find? fun p => p.key == key).map Property.value

/-- The different values that the ancestors state. -/
def allValues (c : Concept) (key : PropertyId) : List PropertyValue :=
  Occurrence.distinct (c.ancestors.filterMap fun a => a.ownProperty? key)

/-- The one value that the ancestors state. -/
def property (c : Concept) (key : PropertyId) : Except ConceptError PropertyValue :=
  match c.allValues key with
  | [] => .error (.missingProperty c key)
  | [value] => .ok value
  | values => .error (.ambiguousProperty c key values.length)

/-- The one value of a property, read as `read` does. -/
def propertyAs {α : Type} (c : Concept) (key : PropertyId) (expected : String)
    (read : PropertyValue → Option α) : Except ConceptError α := do
  match read (← c.property key) with
  | some value => .ok value
  | none => .error (.propertyKind c key expected)

def countProperty (c : Concept) (key : PropertyId) : Except ConceptError Nat :=
  c.propertyAs key "count" PropertyValue.count?

def conceptProperty (c : Concept) (key : PropertyId) : Except ConceptError Concept :=
  c.propertyAs key "concept" PropertyValue.concept?

def typleProperty (c : Concept) (key : PropertyId) : Except ConceptError (List Concept) :=
  c.propertyAs key "typle" PropertyValue.typle?

def dimension (c : Concept) : Except ConceptError Nat := c.countProperty .dimension

def degree (c : Concept) : Except ConceptError Nat := c.countProperty .degree

/-- The field the concept is over. -/
def scalarField (c : Concept) : Except ConceptError Concept := c.conceptProperty .field

def chosenBasis (c : Concept) : Except ConceptError Concept := c.conceptProperty .basis

/-- The space that the concept is a power of. -/
def powerFactor (c : Concept) : Except ConceptError Concept := c.conceptProperty .factor

def factorList (c : Concept) : Except ConceptError (List Concept) := c.typleProperty .factors

def summandList (c : Concept) : Except ConceptError (List Concept) := c.typleProperty .summands

end Concept

/-- A named test of concepts. -/
structure Criterion where
  name : String
  holds : Concept → Bool

namespace Criterion

/-- The different ancestors that pass the test. -/
def instances (s : Criterion) (c : Concept) : List Concept := c.distinctAncestors.filter s.holds

/-- Whether exactly one ancestor passes the test. -/
def hasUnique (s : Criterion) (c : Concept) : Bool := (s.instances c).length == 1

/-- The one ancestor that passes the test. -/
def uniqueOf (s : Criterion) (c : Concept) : Except ConceptError Concept :=
  match s.instances c with
  | [] => .error (.missingStructure c s.name)
  | [a] => .ok a
  | as => .error (.ambiguousStructure c s.name as.length)

end Criterion

/-- A named class of structures. -/
structure StructureClass where
  name : String
  members : List Structure

namespace StructureClass

def holds (s : StructureClass) (c : Concept) : Bool := s.members.contains c.shape

/-- The test whether a concept belongs to the class. -/
def criterion (s : StructureClass) : Criterion := ⟨s.name, s.holds⟩

/-- The different ancestors that belong to the class. -/
def instances (s : StructureClass) (c : Concept) : List Concept := s.criterion.instances c

/-- Whether exactly one ancestor belongs to the class. -/
def hasUnique (s : StructureClass) (c : Concept) : Bool := s.criterion.hasUnique c

/-- The one ancestor that belongs to the class. -/
def uniqueOf (s : StructureClass) (c : Concept) : Except ConceptError Concept := s.criterion.uniqueOf c

def field : StructureClass := ⟨"IsField", [.field]⟩
def vectorSpace : StructureClass := ⟨"IsVectorSpace", [.vectorSpace]⟩
def basis : StructureClass := ⟨"IsBasis", [.basis]⟩
def orthonormalBasis : StructureClass := ⟨"IsOrthonormalBasis", [.orthonormalBasis]⟩
def basedVectorSpace : StructureClass := ⟨"IsBasedVectorSpace", [.basedVectorSpace]⟩
def tensorProduct : StructureClass := ⟨"IsTensorProduct", [.tensorProduct]⟩

def basedTensorProduct : StructureClass :=
  ⟨"IsTensorProductOfBasedVectorSpaces", [.basedTensorProduct]⟩

def directSum : StructureClass := ⟨"IsDirectSum", [.directSum]⟩

def basedDirectSum : StructureClass := ⟨"IsDirectSumOfBasedVectorSpaces", [.basedDirectSum]⟩

def symmetricPower : StructureClass := ⟨"IsSymmetricPower", [.symmetricPower]⟩

def basedSymmetricPower : StructureClass :=
  ⟨"IsSymmetricPowerOfBasedVectorSpace", [.basedSymmetricPower]⟩

def exteriorPower : StructureClass := ⟨"IsExteriorPower", [.exteriorPower]⟩

def basedExteriorPower : StructureClass :=
  ⟨"IsExteriorPowerOfBasedVectorSpace", [.basedExteriorPower]⟩

/-- Symmetric or exterior powers of based vector spaces. -/
def basedPower : StructureClass :=
  ⟨"IsPowerOfBasedVectorSpace", [.basedSymmetricPower, .basedExteriorPower]⟩

/-- The classes that have a name. -/
def all : List StructureClass :=
  [field, vectorSpace, basis, orthonormalBasis, basedVectorSpace, tensorProduct,
    basedTensorProduct, directSum, basedDirectSum, symmetricPower, basedSymmetricPower,
    exteriorPower, basedExteriorPower, basedPower]

end StructureClass

end TensorCalculus
