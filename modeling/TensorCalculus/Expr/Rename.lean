import TensorCalculus.Expr.Build

/-!
# Renaming the indices of an expression

A renaming goes through the whole tree. Sums and products are built anew from their renamed operands.
-/

namespace TensorCalculus

namespace Renaming

def rename (r : Renaming) (index : Index) : Except ExprError Index :=
  match r.image? index with
  | some image => .ok image
  | none => .error (.symbolOverflow index)

def renameList (r : Renaming) (list : List Index) : Except ExprError (List Index) :=
  list.mapM r.rename

def renameBound (r : Renaming) (b : BoundIndex) : Except ExprError BoundIndex := do
  return b.renamed (← r.rename b.index)

def renameFree (r : Renaming) (free : List BoundIndex) : Except ExprError (List BoundIndex) :=
  free.mapM r.renameBound

end Renaming

variable {α : Type}

def Leaf.renamed (l : Leaf α) (r : Renaming) : Except ExprError (Leaf α) := do
  let written ← r.renameList l.written
  let free ← r.renameFree l.free
  let used ← r.renameList l.used
  return { l with written, free, used }

namespace Expr

/-- The same tree with every index renamed. -/
def renamed (r : Renaming) : Expr α → Except ExprError (Expr α)
  | .leaf plan => do return .leaf (← plan.renamed r)
  | .evaluated free array => do return .evaluated (← r.renameFree free) array
  | .sum op left right _ => do add op (← left.renamed r) (← right.renamed r)
  | .scaled op inner scalar => do return .scaled op (← inner.renamed r) scalar
  | .product left right _ => do mul (← left.renamed r) (← right.renamed r)
  | .bundle inner plan => do
    let free ← r.renameFree plan.free
    return .bundle (← inner.renamed r) { plan with free }
  | .split inner plan => do
    let free ← r.renameFree plan.free
    return .split (← inner.renamed r) { plan with free }
  | .embed inner plan => do
    let free ← r.renameFree plan.free
    return .embed (← inner.renamed r) { plan with free }
  | .coembed inner plan => do
    let free ← r.renameFree plan.free
    return .coembed (← inner.renamed r) { plan with free }

/-- Renames the indices in `domain` to those in `codomain`, and moves all others out of the way. -/
def reindex (e : Expr α) (domain codomain : List Index) : Except ExprError (Expr α) := do
  e.renamed (← Renaming.of domain codomain)

end Expr

end TensorCalculus
