/-!
# Binary floating-point numbers

A `Binary f` is a word of the binary interchange format `f`. `decode` gives its exact value, a
significand times a power of two; `ofRatio` rounds an exact ratio to the nearest number of the format,
ties going to the even significand. Too large a magnitude becomes infinite, a small one loses digits
gradually.
-/

namespace TensorCalculus

/-- A format with one sign bit, an exponent field and a fraction field. -/
structure Format where
  exponentBits : Nat
  fractionBits : Nat
deriving DecidableEq, Repr

namespace Format

def half : Format := ⟨5, 10⟩
def single : Format := ⟨8, 23⟩
def double : Format := ⟨11, 52⟩

/-- The number of bytes of a word. -/
def bytes (f : Format) : Nat := (1 + f.exponentBits + f.fractionBits) / 8

/-- The word that has only the sign bit. -/
def signWord (f : Format) : Nat := 1 <<< (f.exponentBits + f.fractionBits)

/-- The word of positive infinity. -/
def infinityWord (f : Format) : Nat := (1 <<< f.exponentBits - 1) <<< f.fractionBits

/-- The exponent of the last place of the smallest numbers. -/
def leastExponent (f : Format) : Int := 2 - (1 <<< (f.exponentBits - 1) : Nat) - f.fractionBits

end Format

/-- A number of the format `f`, as its word. -/
structure Binary (f : Format) where
  word : Nat
deriving DecidableEq, Repr

/-- What a word stands for. A finite value is `significand * 2 ^ exponent` with a sign. -/
inductive Datum where
  | nan
  | infinite (negative : Bool)
  | finite (negative : Bool) (significand : Nat) (exponent : Int)
deriving DecidableEq, Repr

namespace Binary
variable {f : Format}

/-- The word in the lowest bits of a number. -/
def ofWord (n : Nat) : Binary f := ⟨n % (2 * f.signWord)⟩

def nan : Binary f := ⟨f.infinityWord + 1 <<< (f.fractionBits - 1)⟩

/-- The word with the given sign and magnitude. -/
def signed (negative : Bool) (magnitude : Nat) : Binary f :=
  ⟨if negative then f.signWord + magnitude else magnitude⟩

def infinity (negative : Bool) : Binary f := signed negative f.infinityWord

def isNegative (x : Binary f) : Bool := f.signWord ≤ x.word

def magnitude (x : Binary f) : Nat := if x.isNegative then x.word - f.signWord else x.word

def decode (x : Binary f) : Datum :=
  let unit := 1 <<< f.fractionBits
  let (field, fraction) := (x.magnitude / unit, x.magnitude % unit)
  if field = 1 <<< f.exponentBits - 1 then
    if fraction = 0 then .infinite x.isNegative else .nan
  else if field = 0 then .finite x.isNegative fraction f.leastExponent
  else .finite x.isNegative (unit + fraction) (f.leastExponent + field - 1)

/-- The exponent `e` with `2 ^ e ≤ num / den < 2 ^ (e + 1)`, for positive numbers. -/
def ratioExponent (num den : Nat) : Int :=
  let e : Int := num.log2 - den.log2
  if den <<< e.toNat ≤ num <<< (-e).toNat then e else e - 1

/-- The nearest integer to `num / den`, a tie going to the even one. -/
def roundRatio (num den : Nat) : Nat :=
  let (q, r) := (num / den, num % den)
  if den < 2 * r || (2 * r = den && q % 2 = 1) then q + 1 else q

/-- The number of the format nearest to `num / den`, with a sign. -/
def ofRatio (negative : Bool) (num den : Nat) : Binary f :=
  if num = 0 then signed negative 0
  else
    let place := max (ratioExponent num den - f.fractionBits) f.leastExponent
    let significand := roundRatio (num <<< (-place).toNat) (den <<< place.toNat)
    -- a significand with its leading place set, or rounded up past it, carries into the exponent
    let word := (place - f.leastExponent).toNat <<< f.fractionBits + significand
    signed negative (min word f.infinityWord)

/-- The number nearest to `significand * 2 ^ exponent`, with a sign. -/
def ofScaled (negative : Bool) (significand : Nat) (exponent : Int) : Binary f :=
  ofRatio negative (significand <<< exponent.toNat) (1 <<< (-exponent).toNat)

def ofInt (n : Int) : Binary f := ofRatio (n < 0) n.natAbs 1

/-- The same value in another format, rounded. -/
def convert {g : Format} (x : Binary f) : Binary g :=
  match x.decode with
  | .nan => nan
  | .infinite negative => infinity negative
  | .finite negative significand exponent => ofScaled negative significand exponent

/-- The value as an integer, if it is one and not a negative zero. -/
def toInt? (x : Binary f) : Option Int :=
  match x.decode with
  | .finite negative significand exponent =>
    let den := 1 <<< (-exponent).toNat
    let num := significand <<< exponent.toNat
    if num % den = 0 && !(negative && num = 0) then
      some (if negative then -(num / den : Nat) else (num / den : Nat))
    else none
  | _ => none

end Binary

/-- A number in hexadecimal digits, with zeros in front up to the width. -/
def hexPadded (width n : Nat) : String :=
  let digits := Nat.toDigits 16 n
  String.ofList (List.replicate (width - digits.length) '0' ++ digits)

namespace Binary
variable {f : Format}

/-- The word in hexadecimal digits. -/
def wordText (x : Binary f) : String := hexPadded (2 * f.bytes) x.word

/-- The bytes of the word in hexadecimal digits, the lowest first. -/
def bytesText (x : Binary f) : String :=
  String.join ((List.range f.bytes).map fun k => hexPadded 2 (x.word >>> (8 * k) % 256))

end Binary

end TensorCalculus
