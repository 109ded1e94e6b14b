import TensorCalculus.Concept.Basic

/-!
# The text of a concept, and refusals of queries

A concept is written as its structure with its parents and then its property values in angle
brackets. A refused query says which concept it was about.
-/

namespace TensorCalculus

mutual

def Concept.text : Concept → String
  | .mk shape parents properties =>
    shape.name ++ "<" ++
      ", ".intercalate (Concept.texts parents ++ Property.texts properties) ++ ">"

def Concept.texts : List Concept → List String
  | [] => []
  | c :: cs => c.text :: Concept.texts cs

/-- The text of the value of the property. -/
def Property.text : Property → String
  | .mk _ value => value.text

def Property.texts : List Property → List String
  | [] => []
  | p :: ps => p.text :: Property.texts ps

def PropertyValue.text : PropertyValue → String
  | .count n => toString n
  | .tag t => t.label
  | .concept c => c.text
  | .typle cs => "(" ++ ", ".intercalate (Concept.texts cs) ++ ")"

end

def Concept.debugText (c : Concept) : String := "Concept(" ++ c.text ++ ")"

/-! ### Refusals -/

inductive ConceptError where
  | missingProperty (concept : Concept) (property : PropertyId)
  | ambiguousProperty (concept : Concept) (property : PropertyId) (count : Nat)
  | propertyKind (concept : Concept) (property : PropertyId) (expected : String)
  | missingStructure (concept : Concept) (structures : String)
  | ambiguousStructure (concept : Concept) (structures : String) (count : Nat)
  | fieldMismatch (first second : Concept)
  | empty (shape : Structure)
deriving DecidableEq

/-- The kind of a refusal. -/
def ConceptError.name : ConceptError → String
  | .missingProperty .. => "MissingProperty"
  | .ambiguousProperty .. => "AmbiguousProperty"
  | .propertyKind .. => "PropertyKind"
  | .missingStructure .. => "MissingStructure"
  | .ambiguousStructure .. => "AmbiguousStructure"
  | .fieldMismatch .. => "FieldMismatch"
  | .empty .. => "EmptyTyple"

def ConceptError.message : ConceptError → String
  | .missingProperty concept property =>
    s!"property {property.name} is not defined on any ancestor of {concept.text}"
  | .ambiguousProperty concept property count =>
    s!"property {property.name} is defined ambiguously ({count} values) " ++
      s!"among ancestors of {concept.text}"
  | .propertyKind concept property expected =>
    s!"property {property.name} of {concept.text} is not a {expected}"
  | .missingStructure concept structures => s!"{concept.text} has no {structures} structure"
  | .ambiguousStructure concept structures count =>
    s!"{concept.text} has {count} distinct {structures} structures"
  | .fieldMismatch first second => s!"field {first.text} mismatches field {second.text}"
  | .empty shape => s!"{shape.name} needs at least one factor"

end TensorCalculus
