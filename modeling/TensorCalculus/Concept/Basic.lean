import TensorCalculus.Concept.Tag

/-!
# Concepts

A `Concept` describes a space, a basis or a field: what structure it is, which concepts it
specializes (its parents), and the properties it states itself. Concepts are compared by what they
say; `DecidableEq Concept` decides that. A concept may share its parts many times over, so the
decision does not go into two parts that are one and the same in memory.
-/

namespace TensorCalculus

/-- What kind of thing a concept describes. -/
inductive Structure where
  | field
  | vectorSpace
  | basis
  | orthonormalBasis
  | basedVectorSpace
  | tensorProduct
  | basedTensorProduct
  | directSum
  | basedDirectSum
  | symmetricPower
  | basedSymmetricPower
  | exteriorPower
  | basedExteriorPower
deriving DecidableEq, Repr

namespace Structure

def name : Structure → String
  | .field => "Field"
  | .vectorSpace => "VectorSpace"
  | .basis => "Basis"
  | .orthonormalBasis => "OrthonormalBasis"
  | .basedVectorSpace => "BasedVectorSpace"
  | .tensorProduct => "TensorProduct"
  | .basedTensorProduct => "TensorProductOfBasedVectorSpaces"
  | .directSum => "DirectSum"
  | .basedDirectSum => "DirectSumOfBasedVectorSpaces"
  | .symmetricPower => "SymmetricPower"
  | .basedSymmetricPower => "SymmetricPowerOfBasedVectorSpace"
  | .exteriorPower => "ExteriorPower"
  | .basedExteriorPower => "ExteriorPowerOfBasedVectorSpace"

/-- All structures. -/
def all : List Structure :=
  [.field, .vectorSpace, .basis, .orthonormalBasis, .basedVectorSpace, .tensorProduct,
    .basedTensorProduct, .directSum, .basedDirectSum, .symmetricPower, .basedSymmetricPower,
    .exteriorPower, .basedExteriorPower]

end Structure

/-- What a property is about. -/
inductive PropertyId where
  | id
  | field
  | dimension
  | basis
  | factors
  | summands
  | factor
  | degree
deriving DecidableEq, Repr

namespace PropertyId

def name : PropertyId → String
  | .id => "Id"
  | .field => "Field"
  | .dimension => "Dimension"
  | .basis => "Basis"
  | .factors => "FactorTyple"
  | .summands => "SummandTyple"
  | .factor => "Factor"
  | .degree => "Degree"

/-- All properties. -/
def all : List PropertyId :=
  [.id, .field, .dimension, .basis, .factors, .summands, .factor, .degree]

end PropertyId

mutual

inductive Concept where
  | mk (shape : Structure) (parents : List Concept) (properties : List Property)

/-- A property that a concept states itself. -/
inductive Property where
  | mk (key : PropertyId) (value : PropertyValue)

inductive PropertyValue where
  | count (n : Nat)
  | tag (t : Tag)
  | concept (c : Concept)
  | typle (cs : List Concept)

end

namespace Property

def key : Property → PropertyId
  | .mk key _ => key

def value : Property → PropertyValue
  | .mk _ value => value

end Property

namespace Concept

def shape : Concept → Structure
  | .mk shape _ _ => shape

def parents : Concept → List Concept
  | .mk _ parents _ => parents

def properties : Concept → List Property
  | .mk _ _ properties => properties

end Concept

/-! ### Equality -/

mutual

def Concept.decEq (a b : Concept) : Decidable (a = b) :=
  withPtrEqDecEq a b fun _ =>
  match a, b with
  | .mk s ps qs, .mk s' ps' qs' =>
    if hs : s = s' then
      match Property.decEqList qs qs' with
      | isTrue hq =>
        match Concept.decEqList ps ps' with
        | isTrue hp => isTrue (by rw [hs, hp, hq])
        | isFalse hp => isFalse fun h => hp (Concept.mk.inj h).2.1
      | isFalse hq => isFalse fun h => hq (Concept.mk.inj h).2.2
    else isFalse fun h => hs (Concept.mk.inj h).1
termination_by structural a

def Concept.decEqList : (as bs : List Concept) → Decidable (as = bs)
  | [], [] => isTrue rfl
  | [], _ :: _ => isFalse nofun
  | _ :: _, [] => isFalse nofun
  | a :: as, b :: bs =>
    match Concept.decEq a b with
    | isTrue h =>
      match Concept.decEqList as bs with
      | isTrue hs => isTrue (by rw [h, hs])
      | isFalse hs => isFalse fun e => hs (List.cons.inj e).2
    | isFalse h => isFalse fun e => h (List.cons.inj e).1
termination_by structural as => as

def Property.decEq : (a b : Property) → Decidable (a = b)
  | .mk i v, .mk j w =>
    if hi : i = j then
      match PropertyValue.decEq v w with
      | isTrue hv => isTrue (by rw [hi, hv])
      | isFalse hv => isFalse fun h => hv (Property.mk.inj h).2
    else isFalse fun h => hi (Property.mk.inj h).1
termination_by structural a => a

def Property.decEqList : (as bs : List Property) → Decidable (as = bs)
  | [], [] => isTrue rfl
  | [], _ :: _ => isFalse nofun
  | _ :: _, [] => isFalse nofun
  | a :: as, b :: bs =>
    match Property.decEq a b with
    | isTrue h =>
      match Property.decEqList as bs with
      | isTrue hs => isTrue (by rw [h, hs])
      | isFalse hs => isFalse fun e => hs (List.cons.inj e).2
    | isFalse h => isFalse fun e => h (List.cons.inj e).1
termination_by structural as => as

def PropertyValue.decEq : (a b : PropertyValue) → Decidable (a = b)
  | .count m, .count n =>
    if h : m = n then isTrue (by rw [h]) else isFalse fun e => h (PropertyValue.count.inj e)
  | .tag s, .tag t =>
    if h : s = t then isTrue (by rw [h]) else isFalse fun e => h (PropertyValue.tag.inj e)
  | .concept a, .concept b =>
    match Concept.decEq a b with
    | isTrue h => isTrue (by rw [h])
    | isFalse h => isFalse fun e => h (PropertyValue.concept.inj e)
  | .typle as, .typle bs =>
    match Concept.decEqList as bs with
    | isTrue h => isTrue (by rw [h])
    | isFalse h => isFalse fun e => h (PropertyValue.typle.inj e)
  | .count _, .tag _ | .count _, .concept _ | .count _, .typle _ => isFalse nofun
  | .tag _, .count _ | .tag _, .concept _ | .tag _, .typle _ => isFalse nofun
  | .concept _, .count _ | .concept _, .tag _ | .concept _, .typle _ => isFalse nofun
  | .typle _, .count _ | .typle _, .tag _ | .typle _, .concept _ => isFalse nofun
termination_by structural a => a

end

instance : DecidableEq Concept := Concept.decEq
instance : DecidableEq Property := Property.decEq
instance : DecidableEq PropertyValue := PropertyValue.decEq

end TensorCalculus
