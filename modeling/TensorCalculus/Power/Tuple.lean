import TensorCalculus.Count

/-!
# Canonical tuples of a power

The components of a symmetric power are numbered by the non-decreasing tuples of its degree, those of
an exterior power by the strictly increasing ones, both in colexicographic order. `rank` numbers a
canonical tuple, `unrank` finds the tuple of a number, `canonicalize` sorts any tuple and tells with
which sign the component enters. Binomial coefficients are multiplied up factor by factor and divided in
between; the computation overflows as soon as a product before its division is no count.
-/

namespace TensorCalculus

namespace Power

/-- Continues from `acc`, the coefficient of `n` over `i`, for `steps` more factors. -/
def binomialFrom (n : Nat) : (steps i acc : Nat) → Checked Nat
  | 0, _, acc => .ok acc
  | steps + 1, i, acc => do
    binomialFrom n steps (i + 1) ((← Count.mul acc (n - i)) / (i + 1))

/-- The number of `k`-element subsets of `n` elements. -/
def binomial (n k : Nat) : Checked Nat :=
  if n < k then .ok 0 else binomialFrom n (min k (n - k)) 0 1

end Power

inductive PowerKind where
  | symmetric
  | exterior
deriving DecidableEq, Repr

namespace PowerKind

def name : PowerKind → String
  | .symmetric => "Symmetric"
  | .exterior => "Exterior"

/-- The dimension of the power of degree `degree` of a space of dimension `dim`. -/
def dimension (kind : PowerKind) (dim degree : Nat) : Checked Nat :=
  match kind with
  | .symmetric =>
    if degree = 0 then .ok 1 else do Power.binomial ((← Count.add dim degree) - 1) degree
  | .exterior => Power.binomial dim degree

/-- What the entry `a` at place `i` contributes to the rank. -/
def entryRank (kind : PowerKind) (i a : Nat) : Checked Nat :=
  match kind with
  | .symmetric => do Power.binomial (← Count.add a i) (i + 1)
  | .exterior => Power.binomial a (i + 1)

def rankFrom (kind : PowerKind) : (i acc : Nat) → List Nat → Checked Nat
  | _, acc, [] => .ok acc
  | i, acc, a :: tuple => do
    rankFrom kind (i + 1) (← Count.add acc (← kind.entryRank i a)) tuple

/-- The colexicographic number of a canonical tuple. -/
def rank (kind : PowerKind) (tuple : List Nat) : Checked Nat := kind.rankFrom 0 0 tuple

/-- The largest `b` from the given one on whose coefficient over `k` is at most `rank`. -/
def largestFrom (k rank b : Nat) : Checked Nat :=
  if _h : b + 1 < Count.limit then
    match Power.binomial (b + 1) k with
    | .ok above => if above ≤ rank then largestFrom k rank (b + 1) else .ok b
    | .error fault => .error fault
  else .error .overflow
termination_by Count.limit - b

/-- The entry at place `i` of which `b` is found. -/
def entryAt (kind : PowerKind) (i b : Nat) : Checked Nat :=
  match kind with
  | .symmetric => Count.sub b i
  | .exterior => .ok b

/-- The canonical tuple of the given degree and rank, in front of `tail`. -/
def unrankOnto (kind : PowerKind) : (degree rank : Nat) → (tail : List Nat) → Checked (List Nat)
  | 0, _, tail => .ok tail
  | i + 1, rank, tail => do
    let b ← largestFrom (i + 1) rank i
    let rest ← Count.sub rank (← Power.binomial b (i + 1))
    unrankOnto kind i rest ((← kind.entryAt i b) :: tail)

/-- The canonical tuple of the given degree and rank. -/
def unrank (kind : PowerKind) (degree rank : Nat) : Checked (List Nat) :=
  kind.unrankOnto degree rank []

end PowerKind

namespace Power

/-- Inserts `x` behind the entries of a sorted list that are not larger; counts the entries passed. -/
def insertSorted (x : Nat) : List Nat → List Nat × Nat
  | [] => ([x], 0)
  | y :: ys =>
    if y ≤ x then
      let (zs, passed) := insertSorted x ys
      (y :: zs, passed)
    else (x :: y :: ys, ys.length + 1)

/-- Sorts by insertion from the left; counts the exchanges of neighbours. -/
def sortFrom (sorted : List Nat) (exchanges : Nat) : List Nat → List Nat × Nat
  | [] => (sorted, exchanges)
  | x :: xs =>
    let (sorted, passed) := insertSorted x sorted
    sortFrom sorted (exchanges + passed) xs

/-- Whether two neighbours are equal. -/
def hasEqualNeighbours : List Nat → Bool
  | x :: y :: rest => x == y || hasEqualNeighbours (y :: rest)
  | _ => false

end Power

/-- Sorts a tuple and gives the sign of its component: `1` in a symmetric power; in an exterior power
`0` if an entry repeats, and otherwise the sign of the sorting permutation. -/
def PowerKind.canonicalize (kind : PowerKind) (tuple : List Nat) : Int × List Nat :=
  let (sorted, exchanges) := Power.sortFrom [] 0 tuple
  match kind with
  | .symmetric => (1, sorted)
  | .exterior =>
    if Power.hasEqualNeighbours sorted then (0, sorted)
    else (if exchanges % 2 = 0 then 1 else -1, sorted)

end TensorCalculus
