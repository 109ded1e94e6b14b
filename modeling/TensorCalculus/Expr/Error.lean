import TensorCalculus.Concept.Error
import TensorCalculus.Count
import TensorCalculus.Index.Error
import TensorCalculus.Memory.Basic

/-!
# Refusals of expressions

`ExprError` says why an expression or an assignment is not lawful. Refusals of concepts and of index
bookkeeping count among them.
-/

namespace TensorCalculus

inductive ExprError where
  | concept (e : ConceptError)
  | index (e : IndexError)
  | arity (expected found : Nat)
  | notDual (index : Index) (left right : Concept)
  | overused (index : Index) (count : Nat)
  | repeated (index : Index) (list : List Index)
  | unmatchedFree (expected found : List Index)
  | factorMismatch (index : Index) (expected found : Concept)
  | reused (index : Index)
  | notFree (index : Index) (free : List Index)
  | notScalar (free : List Index)
  | degree (index : Index) (factor : Concept) (count : Nat)
  | notInClass (index : Index) (factor : Concept) (expected : String)
  | noIndices (into : Index)
  | aliased (range : MemoryRange)
  | symbolOverflow (index : Index)
deriving DecidableEq

/-- The kind of a refusal, with the path to a cause elsewhere. -/
def ExprError.name : ExprError → String
  | .concept e => "Concept." ++ e.name
  | .index e => "Index." ++ e.name
  | .arity .. => "Arity"
  | .notDual .. => "NotDual"
  | .overused .. => "Overused"
  | .repeated .. => "Repeated"
  | .unmatchedFree .. => "FreeIndexMismatch"
  | .factorMismatch .. => "FactorMismatch"
  | .reused .. => "IndexReuse"
  | .notFree .. => "NotFree"
  | .notScalar .. => "NotScalar"
  | .degree .. => "Degree"
  | .notInClass .. => "Structure"
  | .noIndices .. => "NoIndices"
  | .aliased .. => "Aliased"
  | .symbolOverflow .. => "SymbolOverflow"

def ExprError.message : ExprError → String
  | .concept e => e.message
  | .index e => e.message
  | .arity expected found => s!"{found} indices written on a value with {expected} factors"
  | .notDual i left right =>
    s!"index {i.text} is summed over {left.text} and {right.text}, which are not dual"
  | .overused i count => s!"index {i.text} occurs {count} times"
  | .repeated i list => s!"index {i.text} repeats in {IndexList.text list}"
  | .unmatchedFree expected found =>
    s!"free indices {IndexList.text found} do not match {IndexList.text expected}"
  | .factorMismatch i expected found =>
    s!"index {i.text} ranges over {found.text}, expected {expected.text}"
  | .reused i =>
    s!"index {i.text} is already in use by a subexpression; rename it with `reindex`"
  | .notFree i free => s!"index {i.text} is not free in {IndexList.text free}"
  | .notScalar free => s!"expression with free indices {IndexList.text free} is not a scalar"
  | .degree i factor count =>
    s!"index {i.text} over {factor.text} cannot be replaced by {count} indices"
  | .notInClass i factor expected =>
    s!"index {i.text} ranges over {factor.text}, which is not a {expected}"
  | .noIndices into => s!"no indices given to merge into {into.text}"
  | .aliased range => s!"aliased tensor assignment: the right-hand side reads from {range.text}"
  | .symbolOverflow i => s!"renaming index {i.text} overflows the symbol space"

instance : MonadLift (Except ConceptError) (Except ExprError) where
  monadLift := Except.mapError .concept

instance : MonadLift (Except IndexError) (Except ExprError) where
  monadLift := Except.mapError .index

instance : MonadLift (Except (Failure ConceptError)) (Except (Failure ExprError)) where
  monadLift := Except.mapError (Failure.map .concept)

end TensorCalculus
