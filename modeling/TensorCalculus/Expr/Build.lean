import TensorCalculus.Concept.Dual
import TensorCalculus.Concept.Family
import TensorCalculus.Expr.Basic
import TensorCalculus.Index.Renaming
import TensorCalculus.Occurrence

/-!
# Building expressions

Each constructor checks that its operands fit and works out the plan of the node. An index that is
summed in one operand may not be free in the other; contracted indices range over dual factors; sums
match their free indices by name.
-/

namespace TensorCalculus

/-! ### Checks -/

/-- Refuses a list that repeats an index. -/
def checkDistinct (list : List Index) : Except ExprError Unit :=
  match Occurrence.firstRepeated? list with
  | some index => .error (.repeated index list)
  | none => .ok ()

/-- The position of a free index. -/
def findFree (free : List BoundIndex) (index : Index) : Except ExprError Nat :=
  match free.findIdx? fun b => b.index == index with
  | some position => .ok position
  | none => .error (.notFree index (symbols free))

/-- The positions of free indices. -/
def findAllFree (free : List BoundIndex) (indices : List Index) : Except ExprError (List Nat) :=
  indices.mapM (findFree free)

/-- The position in `expected` of one index, which has to range over the same factor there. -/
def matchOne (expected found : List BoundIndex) (b : BoundIndex) : Except ExprError Nat :=
  match expected.findIdx? fun other => other.index == b.index with
  | none => .error (.unmatchedFree (symbols expected) (symbols found))
  | some position =>
    match expected[position]? with
    | none => .error (.unmatchedFree (symbols expected) (symbols found))
    | some other =>
      if other.factor = b.factor then .ok position
      else .error (.factorMismatch b.index other.factor b.factor)

/-- For each index of `found`, its position in `expected`. The two lists have to hold the same
indices over the same factors, in any order. -/
def matchFree (expected found : List BoundIndex) : Except ExprError (List Nat) :=
  if expected.length ≠ found.length ||
      !Occurrence.sameElements (symbols expected) (symbols found) then
    .error (.unmatchedFree (symbols expected) (symbols found))
  else found.mapM (matchOne expected found)

/-- The dimensions of the factors, one for each written index. -/
def factorDims (written : List Index) (factors : List Concept) :
    Except ExprError (List Nat) := do
  if written.length ≠ factors.length then throw (.arity factors.length written.length)
  checkRank written.length
  factors.mapM fun c => c.dimension

namespace Expr
variable {α : Type}

/-- Refuses operands one of which sums an index that is free in the other. -/
def checkReuse (left right : Expr α) : Except ExprError Unit :=
  match Occurrence.common left.used right.freeSymbols ++
      Occurrence.common right.used left.freeSymbols with
  | index :: _ => .error (.reused index)
  | [] => .ok ()

/-- Refuses a new index that is free or used in the expression, unless it is being released. -/
def checkFresh (e : Expr α) (released : List Index) (index : Index) : Except ExprError Unit :=
  if (e.freeSymbols.contains index && !released.contains index) || e.used.contains index then
    .error (.reused index)
  else .ok ()

end Expr

/-! ### Leaves -/

/-- The pair of positions of an index whose second occurrence is at `slot`. -/
def pairAt (written : List Index) (factors : List Concept) (slot : Nat) (index : Index) :
    Except ExprError (Option (Nat × Nat)) :=
  match (written.take slot).findIdx? (· == index) with
  | none => .ok none
  | some first =>
    match factors[first]?, factors[slot]? with
    | some left, some right =>
      if left.isDualOf right then .ok (some (first, slot)) else .error (.notDual index left right)
    | _, _ => .ok none

/-- The pairs of positions that are summed together, by their second position. -/
def summedPairs (written : List Index) (factors : List Concept) (used : List Index) :
    Except ExprError (List (Nat × Nat)) := do
  let repeated := written.zipIdx.filter fun p => used.contains p.1
  let pairs ← repeated.mapM fun p => pairAt written factors p.2 p.1
  return pairs.filterMap id

/-- The positions of the indices that are written once. -/
def freePositions (written used : List Index) : List Nat :=
  (written.zipIdx.filter fun p => !used.contains p.1).map Prod.snd

/-- The free indices at the given positions. -/
def boundAt (written : List Index) (factors : List Concept) (dims positions : List Nat) :
    List BoundIndex :=
  positions.filterMap fun p =>
    match written[p]?, factors[p]?, dims[p]? with
    | some index, some factor, some dim => some ⟨index, factor, dim⟩
    | _, _, _ => none

/-- The array in `storage` with indices written on its factors. -/
def Leaf.of {α : Type} (storage : Storage α) (written : List Index) (factors : List Concept) :
    Except ExprError (Leaf α) := do
  let dims ← factorDims written factors
  if let (index, count) :: _ := Occurrence.overused written then throw (.overused index count)
  let used := Occurrence.occurring 2 written
  let freeSlots := freePositions written used
  let summed ← summedPairs written factors used
  let extents := summed.filterMap fun p => dims[p.1]?
  checkRank extents.length
  return { storage, written, dims, used, freeSlots, summed, extents,
           free := boundAt written factors dims freeSlots }

namespace Expr
variable {α : Type}

def indexed (storage : Storage α) (written : List Index) (factors : List Concept) :
    Except ExprError (Expr α) := do
  return .leaf (← Leaf.of storage written factors)

/-! ### Sums and multiples -/

/-- The sum or difference of two expressions with the same free indices, in the order of the left. -/
def add (op : SumOp) (left right : Expr α) : Except ExprError (Expr α) := do
  checkReuse left right
  let permutation ← matchFree left.free right.free
  return .sum op left right ⟨permutation, Occurrence.distinct (left.used ++ right.used)⟩

def scale (e : Expr α) (scalar : α) : Expr α := .scaled .times e scalar

def divide (e : Expr α) (scalar : α) : Expr α := .scaled .over e scalar

def negate [Scalar α] (e : Expr α) : Expr α := e.scale (-1)

/-- The sum or difference where a mismatch is a fault. -/
def addOrFault (op : SumOp) (left right : Expr α) : Checked (Expr α) :=
  (add op left right).mapError fun _ => .unmatchedIndices

/-! ### Products -/

/-- The position on the right of a left index that is free in both operands. -/
def contractOne (right : List BoundIndex) (b : BoundIndex) : Except ExprError (Option Nat) :=
  match right.findIdx? fun other => other.index == b.index with
  | none => .ok none
  | some q =>
    match right[q]? with
    | none => .ok none
    | some other =>
      if b.factor.isDualOf other.factor then .ok (some q)
      else .error (.notDual b.index b.factor other.factor)

/-- The product, summed over the indices that are free in both operands. The free indices of the left
operand come first. -/
def mul (left right : Expr α) : Except ExprError (Expr α) := do
  checkReuse left right
  let partners ← left.free.mapM (contractOne right.free)
  let rows := left.free.zip partners |>.zipIdx
  let summed := rows.filterMap fun ((_, partner), p) => partner.map fun q => (p, q)
  let contracted := rows.filterMap fun ((b, partner), _) => partner.map fun _ => b
  let leftFree := rows.filterMap fun ((b, partner), p) =>
    if partner.isNone then some (b, Side.left, p) else none
  let rightFree := right.free.zipIdx.filterMap fun (b, q) =>
    if summed.all fun pair => pair.2 != q then some (b, Side.right, q) else none
  let free := leftFree ++ rightFree
  checkRank free.length
  let extents := contracted.map BoundIndex.dim
  checkRank extents.length
  return .product left right
    { free := free.map Prod.fst
      slots := free.map Prod.snd
      summed, extents
      used := Occurrence.distinct (left.used ++ right.used ++ symbols contracted) }

/-- The product where a refusal is a fault. -/
def mulOrFault (left right : Expr α) : Checked (Expr α) :=
  (mul left right).mapError fun _ => .unlawfulContraction

/-! ### Bundling and splitting -/

/-- The positions below `rank` that are not in the list, in order. -/
def otherPositions (rank : Nat) (positions : List Nat) : List Nat :=
  (List.range rank).filter fun p => !positions.contains p

def freeAt (free : List BoundIndex) (positions : List Nat) : List BoundIndex :=
  positions.filterMap fun p => free[p]?

/-- Merges free indices into one over the tensor product of their factors. It comes last; the first of
the merged indices runs slowest. -/
def bundleInto (e : Expr α) (indices : List Index) (into : Index) :
    Outcome ExprError (Expr α) := do
  if indices.isEmpty then Outcome.refuse (.noIndices into)
  checkDistinct indices
  let bundled ← findAllFree e.free indices
  e.checkFresh indices into
  let merged := freeAt e.free bundled
  let factor ← Concept.basedTensorProduct (merged.map BoundIndex.factor)
  let dims := merged.map BoundIndex.dim
  let kept := otherPositions e.rank bundled
  let dim ← Count.product dims
  return .bundle e { free := freeAt e.free kept ++ [⟨into, factor, dim⟩], kept, bundled, dims }

/-- The free indices without the one at `position`. -/
def freeWithout (free : List BoundIndex) (position : Nat) : List BoundIndex :=
  free.take position ++ free.drop (position + 1)

/-- Splits a free index over a tensor product into one index for each factor. They come last. -/
def splitInto (e : Expr α) (index : Index) (into : List Index) : Except ExprError (Expr α) := do
  let position ← findFree e.free index
  let some bound := e.free[position]? | throw (.notFree index e.freeSymbols)
  if !StructureClass.basedTensorProduct.hasUnique bound.factor then
    throw (.notInClass index bound.factor StructureClass.basedTensorProduct.name)
  let factors ← (← StructureClass.basedTensorProduct.uniqueOf bound.factor).factorList
  if factors.length ≠ into.length then throw (.degree index bound.factor into.length)
  checkDistinct into
  into.forM (e.checkFresh [index])
  checkRank (e.rank - 1 + into.length)
  let dims ← factors.mapM fun c => c.dimension
  let new := (into.zip (factors.zip dims)).map fun (i, factor, dim) => ⟨i, factor, dim⟩
  return .split e { free := freeWithout e.free position ++ new, position, dims }

/-! ### Powers -/

/-- Replaces a free index over a power by one index for each factor of the tensor power. They come
last. -/
def embedInto (e : Expr α) (index : Index) (into : List Index) (embedding : Embedding) :
    Except ExprError (Expr α) := do
  let position ← findFree e.free index
  let some bound := e.free[position]? | throw (.notFree index e.freeSymbols)
  if !StructureClass.basedPower.hasUnique bound.factor then
    throw (.notInClass index bound.factor StructureClass.basedPower.name)
  let power ← StructureClass.basedPower.uniqueOf bound.factor
  let some kind := PowerKind.of? power.shape
    | throw (.notInClass index bound.factor StructureClass.basedPower.name)
  let degree ← power.degree
  if degree ≠ into.length then throw (.degree index bound.factor into.length)
  checkDistinct into
  into.forM (e.checkFresh [index])
  checkRank (e.rank - 1 + degree)
  let base ← power.powerFactor
  let dim ← base.dimension
  let new := into.map fun i => ⟨i, base, dim⟩
  return .embed e { free := freeWithout e.free position ++ new, position, kind, degree, embedding }

/-- Refuses an index that does not range over the factor `base`. -/
def checkFactor (base : Concept) (b : BoundIndex) : Except ExprError Unit :=
  if b.factor = base then .ok () else .error (.factorMismatch b.index base b.factor)

def checkFactors (base : Concept) (bs : List BoundIndex) : Except ExprError Unit :=
  bs.forM (checkFactor base)

/-- Merges free indices over one space into an index over a power of it: the adjoint of the embedding.
The new index comes last. -/
def coembedInto (e : Expr α) (indices : List Index) (into : Index) (kind : PowerKind)
    (embedding : Embedding) : Outcome ExprError (Expr α) := do
  if indices.isEmpty then Outcome.refuse (.noIndices into)
  checkDistinct indices
  let merged ← findAllFree e.free indices
  e.checkFresh indices into
  let first :: rest := freeAt e.free merged | Outcome.refuse (.noIndices into)
  checkFactors first.factor rest
  let power ← Concept.basedPower kind first.factor merged.length
  let dim ← power.dimension
  let kept := otherPositions e.rank merged
  return .coembed e
    { free := freeAt e.free kept ++ [⟨into, power, dim⟩], merged, kept, kind, embedding }

end Expr

end TensorCalculus
