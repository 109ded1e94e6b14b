import TensorCalculus.Binary.Arithmetic
import TensorCalculus.Count
import TensorCalculus.Json.Reader

/-!
# The value of a JSON number

A number without fraction and exponent that fits into 64 bits is an integer. Any other is read as a
double: digits are gathered into a significand as long as it fits into 64 bits, and the rounded
significand is multiplied or divided by a rounded power of ten. The result need not be the nearest
double. A number that becomes infinite is refused.
-/

namespace TensorCalculus.JsonNumber

/-- A significand with a power of ten. -/
structure Gathered where
  significand : Nat
  exponent : Int

/-- Gathers integer digits; each digit that no longer fits raises the exponent, as do all after it. -/
def gatherInteger (significand : Nat) : List Nat → Gathered
  | [] => ⟨significand, 0⟩
  | d :: ds =>
    let next := 10 * significand + d
    if next < Count.limit then gatherInteger next ds else ⟨significand, ds.length + 1⟩

/-- Gathers digits behind the point up to the first that no longer fits. -/
def gatherFraction (g : Gathered) : List Nat → Gathered
  | [] => g
  | d :: ds =>
    let next := 10 * g.significand + d
    if next < Count.limit then gatherFraction ⟨next, g.exponent - 1⟩ ds else g

/-- The largest magnitude of an exponent that is taken as it stands. -/
def exponentLimit : Nat := 1 <<< 31

def digitsValue (ds : List Nat) : Nat := ds.foldl (fun n d => 10 * n + d) 0

/-- The exponent kept to 32 bits. -/
def clampExponent (e : Int) : Int := max (-(exponentLimit : Int)) (min e (exponentLimit - 1))

/-- The double nearest to a power of ten. -/
def powerOfTen (n : Nat) : Binary .double := .ofRatio false (Nat.pow 10 n) 1

/-- The largest power of ten that is a double. -/
def largestPower : Nat := 308

/-- Divides by powers of ten; a zero stays what it is. -/
def scaleDown (x : Binary .double) : (fuel e : Nat) → Binary .double
  | 0, _ => x
  | fuel + 1, e =>
    if e ≤ largestPower then x.div (powerOfTen e)
    else if x.magnitude = 0 then x
    else scaleDown (x.div (powerOfTen largestPower)) fuel (e - largestPower)

/-- The double of a significand with a power of ten, unless it is too large. -/
def scaled? (g : Gathered) : Option (Binary .double) :=
  let x : Binary .double := .ofInt g.significand
  if g.exponent < 0 then
    let e := g.exponent.natAbs
    some (scaleDown x (e + 1) e)
  else if g.exponent ≤ largestPower then
    let y := x.mul (powerOfTen g.exponent.toNat)
    if y = .infinity false then none else some y
  else if g.significand = 0 then some x
  else none

/-- The magnitude of the number as a double. -/
def magnitude? (n : JsonNumber) : Option (Binary .double) :=
  let g := gatherInteger 0 n.integer
  let g := gatherFraction g (n.fraction.getD [])
  match n.exponent with
  | none => scaled? g
  | some (negative, digits) =>
    let e := digitsValue digits
    if e < exponentLimit then
      scaled? ⟨g.significand, clampExponent (if negative then g.exponent - e else g.exponent + e)⟩
    else if negative || g.significand = 0 then some (.ofInt 0)
    else none

/-- The number as a count, if it is written as one. -/
def count? (n : JsonNumber) : Option Nat :=
  if n.negative || n.fraction.isSome || n.exponent.isSome then none
  else
    let value := digitsValue n.integer
    if value < Count.limit then some value else none

/-- The number as a double. -/
def double? (n : JsonNumber) : Option (Binary .double) :=
  n.magnitude?.map fun x => if n.negative then x.neg else x

end TensorCalculus.JsonNumber
