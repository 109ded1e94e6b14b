import TensorCalculus.Binary.Format

/-!
# Shortest decimal text

A finite number is written with the fewest digits that read back as that number, and of those with the
digits nearest to its value. Where two are equally near, a `Tie` decides. A `DecimalLayout` says for
which magnitudes the digits are written positionally; outside of them an exponent follows.
-/

namespace TensorCalculus

/-- The decimal number `digits * 10 ^ exponent`. -/
structure Decimal where
  digits : Nat
  exponent : Int
deriving DecidableEq, Repr

/-- Which of two equally near neighbours is taken. -/
inductive Tie where
  | toEven
  | up
deriving DecidableEq, Repr

/-- Whether a tie above `d` goes to `d` itself. -/
def Tie.staysAt (tie : Tie) (d : Nat) : Bool :=
  match tie with
  | .toEven => d % 2 = 0
  | .up => false

namespace Decimal

/-- Raises a decimal exponent while the power stays at most `num / den`. -/
def raiseExponent (num den : Nat) : (fuel : Nat) → Int → Int
  | 0, e => e
  | fuel + 1, e =>
    if den * Nat.pow 10 (e + 1).toNat ≤ num * Nat.pow 10 (-(e + 1)).toNat then
      raiseExponent num den fuel (e + 1)
    else e

/-- The exponent `e` with `10 ^ e ≤ num / den < 10 ^ (e + 1)`. The first guess, by the number of
binary digits, is low by less than four. -/
def leadingExponent (num den : Nat) : Int :=
  raiseExponent num den 4 (((num.log2 : Int) - den.log2) * 30103 / 100000 - 2)

/-- The real numbers that round to a given number: ends over a common denominator. -/
structure Interval where
  low : Nat
  value : Nat
  high : Nat
  den : Nat
  closed : Bool

def Interval.contains (i : Interval) (num den : Nat) : Bool :=
  let n := num * i.den
  if i.closed then i.low * den ≤ n && n ≤ i.high * den else i.low * den < n && n < i.high * den

/-- The interval of the number `significand * 2 ^ exponent`. Below a power of two the next number is
nearer, except among the smallest. -/
def interval (f : Format) (significand : Nat) (exponent : Int) : Interval :=
  let scale := 1 <<< exponent.toNat
  let below := if significand = 1 <<< f.fractionBits && f.leastExponent < exponent then 1 else 2
  { low := (4 * significand - below) * scale
    value := 4 * significand * scale
    high := (4 * significand + 2) * scale
    den := 4 <<< (-exponent).toNat
    closed := significand % 2 = 0 }

/-- Of the two neighbours of the value among the multiples of `10 ^ e`, the nearest that lies in the
interval. -/
def onGrid? (tie : Tie) (i : Interval) (e : Int) : Option Nat :=
  let (up, down) := (Nat.pow 10 e.toNat, Nat.pow 10 (-e).toNat)
  let d := i.value * down / (i.den * up)
  let inside := fun n => i.contains (n * up) down
  -- twice the distances from the value, over one denominator
  let below := i.value * down - d * up * i.den
  let above := (d + 1) * up * i.den - i.value * down
  if inside d && (below < above || (below = above && tie.staysAt d) || !inside (d + 1)) then some d
  else if inside (d + 1) then some (d + 1)
  else none

/-- The first hit on ever finer grids. -/
def firstHit (tie : Tie) (i : Interval) : (fuel : Nat) → Int → Option Decimal
  | 0, _ => none
  | fuel + 1, e =>
    match onGrid? tie i e with
    | some d => some ⟨d, e⟩
    | none => firstHit tie i fuel (e - 1)

/-- Drops trailing zeros; `fuel` bounds their number. -/
def dropZeros : (fuel : Nat) → Decimal → Decimal
  | 0, d => d
  | fuel + 1, d =>
    if d.digits ≠ 0 && d.digits % 10 = 0 then dropZeros fuel ⟨d.digits / 10, d.exponent + 1⟩ else d

/-- The shortest decimal that reads back as the positive number `significand * 2 ^ exponent`. -/
def shortest (tie : Tie) (f : Format) (significand : Nat) (exponent : Int) : Decimal :=
  let i := interval f significand exponent
  let lead := leadingExponent i.value i.den
  match firstHit tie i 20 lead with
  | some d => dropZeros 20 d
  | none => ⟨0, 0⟩

end Decimal

/-- How decimals are written. -/
structure DecimalLayout where
  /-- The least decimal exponent that is written positionally. -/
  least : Int
  /-- The largest decimal exponent that is written positionally. -/
  most : Int
  tie : Tie
  /-- What stands before the digits of a positive exponent. -/
  plus : String

namespace DecimalLayout

def zeros (n : Nat) : String := String.ofList (List.replicate n '0')

/-- Digits with a point after the first `whole` of them, and at least one digit on both sides. -/
def withPoint (digits : String) (whole : Int) : String :=
  let n := digits.length
  if whole ≤ 0 then "0." ++ zeros (-whole).toNat ++ digits
  else if n ≤ whole.toNat then digits ++ zeros (whole.toNat - n) ++ ".0"
  else
    String.ofList (digits.toList.take whole.toNat) ++ "." ++
      String.ofList (digits.toList.drop whole.toNat)

def decimalText (layout : DecimalLayout) (d : Decimal) : String :=
  let digits := toString d.digits
  let lead := d.exponent + digits.length - 1
  if layout.least ≤ lead && lead ≤ layout.most then withPoint digits (lead + 1)
  else
    let mantissa := if digits.length = 1 then digits else
      String.ofList (digits.toList.take 1) ++ "." ++ String.ofList (digits.toList.drop 1)
    mantissa ++ "e" ++ (if 0 < lead then layout.plus else "") ++ toString lead

/-- The text of a number. -/
def text {f : Format} (layout : DecimalLayout) (x : Binary f) : String :=
  match x.decode with
  | .nan => "NaN"
  | .infinite negative => if negative then "-inf" else "inf"
  | .finite negative significand exponent =>
    let unsigned :=
      if significand = 0 then "0.0"
      else layout.decimalText (Decimal.shortest layout.tie f significand exponent)
    if negative then "-" ++ unsigned else unsigned

/-- Texts for reading: a tie goes up, and a positive exponent has no sign. -/
def plain : DecimalLayout := ⟨-4, 15, .up, ""⟩

/-- Texts for interchange: a tie goes to the even digit, and every exponent has a sign. -/
def interchange : DecimalLayout := ⟨-5, 15, .toEven, "+"⟩

end DecimalLayout

/-- The format in which numbers of this format are written: half precision numbers are written like
their single precision values. -/
def Format.written (f : Format) : Format := if f = .half then .single else f

/-- The text of a number for reading. -/
def Binary.text {f : Format} (x : Binary f) : String :=
  DecimalLayout.plain.text (x.convert : Binary f.written)

end TensorCalculus
