import TensorCalculus.Concept.Basic

/-!
# The dual of a concept

Fields are their own dual. Any other concept keeps its structure and dualizes its parents and its
properties, down to the tags; counts stay as they are.
-/

namespace TensorCalculus

mutual

/-- The formal dual. -/
def Concept.dual : Concept → Concept
  | .mk shape parents properties =>
    if shape = .field then .mk shape parents properties
    else .mk shape (Concept.dualList parents) (Property.dualList properties)

def Concept.dualList : List Concept → List Concept
  | [] => []
  | c :: cs => c.dual :: Concept.dualList cs

def Property.dual : Property → Property
  | .mk key value => .mk key value.dual

def Property.dualList : List Property → List Property
  | [] => []
  | p :: ps => p.dual :: Property.dualList ps

def PropertyValue.dual : PropertyValue → PropertyValue
  | .count n => .count n
  | .tag t => .tag t.opposite
  | .concept c => .concept c.dual
  | .typle cs => .typle (Concept.dualList cs)

end

/-- Whether the two concepts can be contracted with each other. -/
def Concept.isDualOf (a b : Concept) : Bool := a.dual == b

end TensorCalculus
