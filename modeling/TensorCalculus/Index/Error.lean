import TensorCalculus.Index.Symbol

/-!
# Refusals of index bookkeeping
-/

namespace TensorCalculus

/-- The largest number of free indices, or of indices summed at once. -/
def maxRank : Nat := 16

inductive IndexError where
  | outOfRange (value count : Nat)
  | rankTooLarge (rank : Nat)
  | renamingLength (domain codomain : List Index)
  | repeated (index : Index) (list : List Index)
deriving DecidableEq, Repr

/-- The kind of a refusal. -/
def IndexError.name : IndexError → String
  | .outOfRange .. => "OutOfRange"
  | .rankTooLarge .. => "RankTooLarge"
  | .renamingLength .. => "MapLength"
  | .repeated .. => "Repeated"

def IndexError.message : IndexError → String
  | .outOfRange value count => s!"component index {value} out of range for {count} components"
  | .rankTooLarge rank => s!"rank {rank} exceeds the maximal rank {maxRank}"
  | .renamingLength domain codomain =>
    s!"index map domain {IndexList.text domain} and codomain {IndexList.text codomain} " ++
      "differ in length"
  | .repeated index list => s!"index {index.text} is repeated in {IndexList.text list}"

/-- Refuses a number of indices past the limit. -/
def checkRank (rank : Nat) : Except IndexError Unit :=
  if rank > maxRank then .error (.rankTooLarge rank) else .ok ()

end TensorCalculus
