/-!
# JSON values and how they are read

A `Json` value keeps what its text says: the digits of a number, and the members of an object in order
with repetitions. A string that spells half of a surrogate pair has no characters.

A reader takes characters from the front and gives a value with the characters that are left.
Numbers have no leading zeros, strings no control characters, and nothing but blanks may follow the
value.
-/

namespace TensorCalculus

/-- The digits of a number as they are written. -/
structure JsonNumber where
  negative : Bool
  integer : List Nat
  /-- The digits behind the point, if there is one. -/
  fraction : Option (List Nat)
  /-- The sign and the digits of the exponent, if there is one. -/
  exponent : Option (Bool × List Nat)

inductive Json where
  | null
  | bool (b : Bool)
  | number (n : JsonNumber)
  | string (s : Option String)
  | array (items : List Json)
  | object (members : List (Option String × Json))

namespace Json

/-- Takes what is read from the front. -/
abbrev Reader (α : Type) := List Char → Option (α × List Char)

def isBlank (c : Char) : Bool := c = ' ' || c = '\n' || c = '\t' || c = '\r'

def skipBlanks (cs : List Char) : List Char := cs.dropWhile isBlank

/-- Takes exactly this character. -/
def readChar (c : Char) : List Char → Option (List Char)
  | d :: cs => if d = c then some cs else none
  | [] => none

/-! ### Numbers -/

def digitValue (c : Char) : Nat := c.toNat - '0'.toNat

/-- The digits at the front. -/
def readDigits (cs : List Char) : List Nat × List Char :=
  ((cs.takeWhile Char.isDigit).map digitValue, cs.dropWhile Char.isDigit)

/-- One digit at least. -/
def readSomeDigits : Reader (List Nat) := fun cs =>
  match readDigits cs with
  | ([], _) => none
  | found => some found

/-- The digits before the point: a zero stands alone. -/
def readInteger : Reader (List Nat) := fun cs =>
  match readDigits cs with
  | ([], _) => none
  | (0 :: _ :: _, _) => none
  | found => some found

def readFraction : Reader (Option (List Nat))
  | '.' :: cs => (readSomeDigits cs).map fun (digits, rest) => (some digits, rest)
  | cs => some (none, cs)

def readSign : List Char → Bool × List Char
  | '+' :: cs => (false, cs)
  | '-' :: cs => (true, cs)
  | cs => (false, cs)

def readExponent : Reader (Option (Bool × List Nat))
  | [] => some (none, [])
  | c :: cs =>
    if c = 'e' || c = 'E' then do
      let (negative, cs) := readSign cs
      let (digits, rest) ← readSomeDigits cs
      return (some (negative, digits), rest)
    else some (none, c :: cs)

/-- A number without its sign. -/
def readMagnitude (negative : Bool) : Reader Json := fun cs => do
  let (integer, cs) ← readInteger cs
  let (fraction, cs) ← readFraction cs
  let (exponent, cs) ← readExponent cs
  return (.number ⟨negative, integer, fraction, exponent⟩, cs)

/-! ### Strings -/

def hexValue? (c : Char) : Option Nat :=
  if c.isDigit then some (digitValue c)
  else if 'a' ≤ c && c ≤ 'f' then some (c.toNat - 'a'.toNat + 10)
  else if 'A' ≤ c && c ≤ 'F' then some (c.toNat - 'A'.toNat + 10)
  else none

/-- The character of an escape by a letter. -/
def escaped? (c : Char) : Option Nat :=
  match c with
  | '"' => some 34
  | '\\' => some 92
  | '/' => some 47
  | 'b' => some 8
  | 'f' => some 12
  | 'n' => some 10
  | 'r' => some 13
  | 't' => some 9
  | _ => none

/-- The code units up to the closing quote. -/
def readUnits : Reader (List Nat)
  | [] => none
  | '"' :: cs => some ([], cs)
  | '\\' :: 'u' :: a :: b :: c :: d :: cs => do
    let unit := 4096 * (← hexValue? a) + 256 * (← hexValue? b) + 16 * (← hexValue? c) + (← hexValue? d)
    let (units, rest) ← readUnits cs
    return (unit :: units, rest)
  | '\\' :: c :: cs => do
    let unit ← escaped? c
    let (units, rest) ← readUnits cs
    return (unit :: units, rest)
  | c :: cs => do
    if c.toNat < 32 || c = '\\' then none
    let (units, rest) ← readUnits cs
    return (c.toNat :: units, rest)

def isHigh (unit : Nat) : Bool := 0xD800 ≤ unit && unit < 0xDC00

def isLow (unit : Nat) : Bool := 0xDC00 ≤ unit && unit < 0xE000

/-- Joins surrogate pairs; half a pair stands for nothing. -/
def joinUnits : List Nat → Option (List Char)
  | [] => some []
  | [unit] => if isHigh unit || isLow unit then none else some [Char.ofNat unit]
  | unit :: next :: units =>
    if isHigh unit then
      if isLow next then
        (joinUnits units).map (Char.ofNat (0x10000 + (unit - 0xD800) * 1024 + (next - 0xDC00)) :: ·)
      else none
    else if isLow unit then none
    else (joinUnits (next :: units)).map (Char.ofNat unit :: ·)

/-- A string behind its opening quote. -/
def readString : Reader (Option String) := fun cs => do
  let (units, rest) ← readUnits cs
  return ((joinUnits units).map String.ofList, rest)

/-! ### Values -/

/-- A word behind its first letter. -/
def readWord (word : List Char) (value : Json) : Reader Json := fun cs =>
  if word.isPrefixOf cs then some (value, cs.drop word.length) else none

mutual

/-- A value; `fuel` bounds the number of steps. -/
def readValue : (fuel : Nat) → Reader Json
  | 0, _ => none
  | fuel + 1, cs =>
    match skipBlanks cs with
    | [] => none
    | 'n' :: cs => readWord ['u', 'l', 'l'] .null cs
    | 't' :: cs => readWord ['r', 'u', 'e'] (.bool true) cs
    | 'f' :: cs => readWord ['a', 'l', 's', 'e'] (.bool false) cs
    | '"' :: cs => (readString cs).map fun (s, rest) => (.string s, rest)
    | '[' :: cs =>
      match skipBlanks cs with
      | ']' :: cs => some (.array [], cs)
      | cs => (readItems fuel cs).map fun (items, rest) => (.array items, rest)
    | '{' :: cs =>
      match skipBlanks cs with
      | '}' :: cs => some (.object [], cs)
      | cs => (readMembers fuel cs).map fun (members, rest) => (.object members, rest)
    | '-' :: cs => readMagnitude true cs
    | cs => readMagnitude false cs

/-- One item at least, up to the closing bracket. -/
def readItems : (fuel : Nat) → Reader (List Json)
  | 0, _ => none
  | fuel + 1, cs => do
    let (item, cs) ← readValue fuel cs
    match skipBlanks cs with
    | ']' :: cs => return ([item], cs)
    | ',' :: cs =>
      let (items, rest) ← readItems fuel cs
      return (item :: items, rest)
    | _ => none

/-- One member at least, up to the closing brace. -/
def readMembers : (fuel : Nat) → Reader (List (Option String × Json))
  | 0, _ => none
  | fuel + 1, cs => do
    let cs ← readChar '"' (skipBlanks cs)
    let (key, cs) ← readString cs
    let cs ← readChar ':' (skipBlanks cs)
    let (value, cs) ← readValue fuel cs
    match skipBlanks cs with
    | '}' :: cs => return ([(key, value)], cs)
    | ',' :: cs =>
      let (members, rest) ← readMembers fuel cs
      return ((key, value) :: members, rest)
    | _ => none

end

/-- The value that a text spells. Every step takes a character, so the fuel suffices. -/
def ofText? (s : String) : Option Json := do
  let cs := s.toList
  let (value, rest) ← readValue (2 * cs.length + 2) cs
  if (skipBlanks rest).isEmpty then some value else none

end Json

end TensorCalculus
