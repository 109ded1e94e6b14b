import TensorCalculus.Index.Error

/-!
# Renaming of indices

A `Renaming` sends `domain[k]` to `codomain[k]`. Every other index is moved past the largest symbol of
the codomain, so that it cannot meet a renamed one. If domain and codomain are the same list, nothing
is moved.
-/

namespace TensorCalculus

structure Renaming where
  domain : List Index
  codomain : List Index
  /-- One past the largest symbol of the codomain, if that is a symbol. -/
  offset : Option UInt32
deriving DecidableEq, Repr

namespace Renaming

/-- One past the largest symbol of the list. -/
def offsetPast (codomain : List Index) : Option UInt32 :=
  match IndexList.maxSymbol? codomain with
  | none => some 0
  | some largest => ((⟨largest⟩ : Index).offset? 1).map Index.symbol

def checkDistinct (list : List Index) : Except IndexError Unit :=
  match Occurrence.firstRepeated? list with
  | some index => .error (.repeated index list)
  | none => .ok ()

def of (domain codomain : List Index) : Except IndexError Renaming := do
  if domain.length ≠ codomain.length then throw (.renamingLength domain codomain)
  checkDistinct domain
  checkDistinct codomain
  return ⟨domain, codomain, offsetPast codomain⟩

def isIdentity (r : Renaming) : Bool := r.domain == r.codomain

/-- The image of `i`, unless it leaves the symbol space. -/
def image? (r : Renaming) (i : Index) : Option Index :=
  if r.isIdentity then some i
  else match IndexList.position? r.domain i with
    | some k => r.codomain[k]?
    | none => r.offset.bind i.offset?

end Renaming

end TensorCalculus
