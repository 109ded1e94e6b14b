/-!
# Identity tags

A tag tells apart concepts that agree in everything else. A declared identity has a formal dual; the
generic self-dual tag is its own. Identities with one label may be different: the key decides.
-/

namespace TensorCalculus

/-- A declared identity. -/
structure Identity where
  key : String
  label : String
deriving DecidableEq, Repr

inductive Tag where
  | of (identity : Identity)
  | dual (identity : Identity)
  | selfDual
deriving DecidableEq, Repr

namespace Tag

/-- The tag declared under one name, which is key and label. -/
def named (name : String) : Tag := .of ⟨name, name⟩

def label : Tag → String
  | .of identity => identity.label
  | .dual identity => "Dual<" ++ identity.label ++ ">"
  | .selfDual => "SelfDualGeneric"

/-- The formal dual: taken twice, it gives the tag back. -/
def opposite : Tag → Tag
  | .of identity => .dual identity
  | .dual identity => .of identity
  | .selfDual => .selfDual

def isSelfDual (t : Tag) : Bool := t.opposite == t

def debugText (t : Tag) : String := "Tag(\"" ++ t.label ++ "\")"

end Tag

end TensorCalculus
