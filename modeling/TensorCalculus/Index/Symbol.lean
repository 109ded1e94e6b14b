import TensorCalculus.Occurrence

/-!
# Index symbols

An `Index` is a symbol written on a tensor, such as the `i` of `v(i)`. Symbols are 32-bit words; one
made from a letter or a digit prints as that character, any other as `i_N`.
-/

namespace TensorCalculus

/-- A symbol that ranges over the components of one factor. -/
structure Index where
  symbol : UInt32
deriving DecidableEq, Repr

namespace Index

def ofChar (c : Char) : Index := ⟨c.val⟩

/-- The symbol moved up by `offset`, unless that leaves the symbol space. -/
def offset? (i : Index) (offset : UInt32) : Option Index :=
  if i.symbol.toNat + offset.toNat < UInt32.size then some ⟨i.symbol + offset⟩ else none

def isAlphanumeric (n : Nat) : Bool :=
  (48 ≤ n && n ≤ 57) || (65 ≤ n && n ≤ 90) || (97 ≤ n && n ≤ 122)

def text (i : Index) : String :=
  let n := i.symbol.toNat
  if isAlphanumeric n then String.singleton (Char.ofNat n) else s!"i_{n}"

/-- The text with the number of the symbol. -/
def debugText (i : Index) : String := s!"AbstractIndex({i.symbol.toNat})"

end Index

namespace IndexList

/-- One index for each character. -/
def ofString (s : String) : List Index := s.toList.map Index.ofChar

def text (is : List Index) : String := "(" ++ ", ".intercalate (is.map Index.text) ++ ")"

def debugText (is : List Index) : String :=
  "IndexList([" ++ ", ".intercalate (is.map Index.debugText) ++ "])"

def position? (is : List Index) (i : Index) : Option Nat := is.findIdx? (· == i)

def largerSymbol (a b : UInt32) : UInt32 := if a.toNat < b.toNat then b else a

/-- The largest symbol of the list. -/
def maxSymbol? : List Index → Option UInt32
  | [] => none
  | i :: is => some (is.foldl (fun s j => largerSymbol s j.symbol) i.symbol)

end IndexList

end TensorCalculus
