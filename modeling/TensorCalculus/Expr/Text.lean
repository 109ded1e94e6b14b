import TensorCalculus.Binary.Decimal
import TensorCalculus.Expr.Session

/-!
# The text of an expression

The text shows the tree with the free indices of its nodes. `scalar` writes single components.
-/

namespace TensorCalculus

/-- A name with fields in braces. -/
def recordText (name : String) (fields : List (String × String)) : String :=
  name ++ " \x7b " ++ ", ".intercalate (fields.map fun f => f.1 ++ ": " ++ f.2) ++ " \x7d"

def bracketed (items : List String) : String := "[" ++ ", ".intercalate items ++ "]"

/-- The text of an owned array. -/
def arrayText {α : Type} (scalar : α → String) (components : List α) : String :=
  "MemberArray(" ++ bracketed (components.map scalar) ++ ")"

def BoundIndex.debugText (b : BoundIndex) : String :=
  recordText "DimIndex"
    [("index", b.index.debugText), ("factor", b.factor.debugText), ("dim", toString b.dim)]

def freeText (free : List BoundIndex) : String := bracketed (free.map BoundIndex.debugText)

def SumOp.sign : SumOp → String
  | .plus => "+"
  | .minus => "-"

def ScaleOp.sign : ScaleOp → String
  | .times => "*"
  | .over => "/"

def quoted (s : String) : String := "'" ++ s ++ "'"

namespace Expr
variable {α : Type}

/-- The text of a node and the nodes below it. -/
def nodeText (scalar : α → String) : Expr α → String
  | .leaf plan =>
    recordText "IndexedObject"
      [("written", IndexList.debugText plan.written), ("free", freeText plan.free),
        ("used", bracketed (plan.used.map Index.debugText))]
  | .evaluated free array =>
    recordText "Evaluated"
      [("free", freeText free), ("array", arrayText scalar array.toList)]
  | .sum op left right _ =>
    recordText "Addition"
      [("op", quoted op.sign), ("left", left.nodeText scalar), ("right", right.nodeText scalar)]
  | .scaled op inner x =>
    recordText "ScalarMultiplication"
      [("op", quoted op.sign), ("inner", inner.nodeText scalar), ("scalar", scalar x)]
  | .product left right plan =>
    recordText "Multiplication"
      [("left", left.nodeText scalar), ("right", right.nodeText scalar),
        ("free", freeText plan.free)]
  | .bundle inner plan =>
    recordText "Bundle" [("inner", inner.nodeText scalar), ("free", freeText plan.free)]
  | .split inner plan =>
    recordText "Split" [("inner", inner.nodeText scalar), ("free", freeText plan.free)]
  | .embed inner plan =>
    recordText "Embed"
      [("inner", inner.nodeText scalar), ("free", freeText plan.free),
        ("kind", plan.kind.name), ("embedding", plan.embedding.name)]
  | .coembed inner plan =>
    recordText "Coembed"
      [("inner", inner.nodeText scalar), ("free", freeText plan.free),
        ("kind", plan.kind.name), ("embedding", plan.embedding.name)]

def debugText (scalar : α → String) (e : Expr α) : String := "Expr(" ++ e.nodeText scalar ++ ")"

end Expr

def Target.debugText (t : Target) : String :=
  recordText "IndexedObjectMut"
    [("free", freeText t.free), ("no_alias", if t.unchecked then "true" else "false")]

end TensorCalculus
