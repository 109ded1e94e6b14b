import TensorCalculus.Binary.Format

/-!
# Arithmetic of binary numbers

Each operation gives the exact result rounded once. The sum of opposite numbers is positive zero; a
zero times or over a number keeps the sign of the product.
-/

namespace TensorCalculus.Binary
variable {f : Format}

def neg (x : Binary f) : Binary f := signed (!x.isNegative) x.magnitude

/-- A signed multiple of a power of two, in units of the smaller exponent. -/
def inUnits (negative : Bool) (significand : Nat) (exponent unit : Int) : Int :=
  let n : Int := (significand <<< (exponent - unit).toNat : Nat)
  if negative then -n else n

def add (x y : Binary f) : Binary f :=
  match x.decode, y.decode with
  | .nan, _ | _, .nan => nan
  | .infinite s, .infinite t => if s = t then infinity s else nan
  | .infinite s, .finite .. => infinity s
  | .finite .., .infinite t => infinity t
  | .finite s m e, .finite t n d =>
    let unit := min e d
    let total := inUnits s m e unit + inUnits t n d unit
    if total = 0 then signed (s && t) 0 else ofScaled (total < 0) total.natAbs unit

def sub (x y : Binary f) : Binary f := add x y.neg

def mul (x y : Binary f) : Binary f :=
  match x.decode, y.decode with
  | .nan, _ | _, .nan => nan
  | .infinite s, .infinite t => infinity (s != t)
  | .infinite s, .finite t n _ | .finite t n _, .infinite s =>
    if n = 0 then nan else infinity (s != t)
  | .finite s m e, .finite t n d => ofScaled (s != t) (m * n) (e + d)

def div (x y : Binary f) : Binary f :=
  match x.decode, y.decode with
  | .nan, _ | _, .nan => nan
  | .infinite _, .infinite _ => nan
  | .infinite s, .finite t _ _ => infinity (s != t)
  | .finite s _ _, .infinite t => signed (s != t) 0
  | .finite s m e, .finite t n d =>
    if n = 0 then if m = 0 then nan else infinity (s != t)
    else ofRatio (s != t) (m <<< (e - d).toNat) (n <<< (d - e).toNat)

/-- The integer square root by binary digits; `fuel` bounds their number. -/
def natSqrt : (fuel n : Nat) → Nat
  | 0, _ => 0
  | fuel + 1, n =>
    if n = 0 then 0
    else
      let r := 2 * natSqrt fuel (n / 4)
      if (r + 1) * (r + 1) ≤ n then r + 1 else r

def sqrt (x : Binary f) : Binary f :=
  match x.decode with
  | .nan => nan
  | .infinite s => if s then nan else infinity false
  | .finite s m e =>
    if m = 0 then x
    else if s then nan
    else
      -- an even exponent, and enough places for the root to be rounded rightly
      let places := 2 * (f.fractionBits + 3) + (e % 2).toNat
      let n := m <<< places
      let root := natSqrt (n.log2 + 1) n
      -- an inexact root lies strictly between two integers: half a unit stands for it
      let doubled := if root * root = n then 2 * root else 2 * root + 1
      ofScaled false doubled ((e - places) / 2 - 1)

/-- The order of the values; none with a NaN. -/
def compare? (x y : Binary f) : Option Ordering :=
  match x.decode, y.decode with
  | .nan, _ | _, .nan => none
  | .infinite s, .infinite t => some (compare t.toNat s.toNat)
  | .infinite s, .finite .. => some (if s then .lt else .gt)
  | .finite .., .infinite t => some (if t then .gt else .lt)
  | .finite s m e, .finite t n d =>
    let unit := min e d
    some (compare (inUnits s m e unit) (inUnits t n d unit))

def eq (x y : Binary f) : Bool := compare? x y == some .eq

def lt (x y : Binary f) : Bool := compare? x y == some .lt

def le (x y : Binary f) : Bool := lt x y || eq x y

end TensorCalculus.Binary
