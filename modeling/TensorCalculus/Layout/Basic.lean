import TensorCalculus.Count

/-!
# Layout of type strings

A type string such as `Tensor<Space<3>, f64>` is broken after every opening bracket and comma, and
before every closing bracket; each level of nesting is indented further. A group nested too deep is
shown as `<...>`. Brackets need not match: any closing bracket ends a level. Blanks are the characters
with the Unicode property `White_Space`.
-/

namespace TensorCalculus.Layout

/-- The ranges of blank code points. -/
def blankRanges : List (Nat × Nat) :=
  [(0x9, 0xD), (0x20, 0x20), (0x85, 0x85), (0xA0, 0xA0), (0x1680, 0x1680), (0x2000, 0x200A),
    (0x2028, 0x2029), (0x202F, 0x202F), (0x205F, 0x205F), (0x3000, 0x3000)]

def isBlank (c : Char) : Bool := blankRanges.any fun r => r.1 ≤ c.toNat && c.toNat ≤ r.2

/-- The text without the blanks at its ends. -/
def trim (cs : List Char) : List Char :=
  ((cs.dropWhile isBlank).reverse.dropWhile isBlank).reverse

structure Style where
  /-- The number of blanks for each level. -/
  indent : Nat
  /-- The depth from which on groups are collapsed. -/
  collapse : Nat

/-- The bracket that closes a group opened by `c`. -/
def closer? (c : Char) : Option Char :=
  if c = '<' then some '>' else if c = '(' then some ')' else if c = '[' then some ']' else none

def isCloser (c : Char) : Bool := c = '>' || c = ')' || c = ']'

/-- What is left after the group in which `opened` brackets are open. -/
def skipGroup : (opened : Nat) → List Char → List Char
  | _, [] => []
  | opened, c :: cs =>
    if (closer? c).isSome then skipGroup (opened + 1) cs
    else if isCloser c then if opened = 1 then cs else skipGroup (opened - 1) cs
    else skipGroup opened cs

theorem length_skipGroup_le (opened : Nat) (cs : List Char) :
    (skipGroup opened cs).length ≤ cs.length := by
  induction cs generalizing opened with
  | nil => simp [skipGroup]
  | cons c cs ih =>
    simp only [skipGroup, List.length_cons]
    split
    · exact Nat.le_succ_of_le (ih _)
    · split
      · split
        · exact Nat.le_succ _
        · exact Nat.le_succ_of_le (ih _)
      · exact Nat.le_succ_of_le (ih _)

/-- A line break with the indentation of the depth. -/
def lineBreak (style : Style) (depth : Nat) : Checked (List Char) := do
  return '\n' :: List.replicate (← Count.mul style.indent depth) ' '

/-- The layout of what follows the character `previous` at the given depth. -/
def layoutFrom (style : Style) (depth : Nat) (previous : Option Char) :
    List Char → Checked (List Char)
  | [] => .ok []
  | c :: cs =>
    if c = '>' && previous = some '-' then do
      return c :: (← layoutFrom style depth (some c) cs)
    else match closer? c with
    | some close =>
      if cs.head? = some close then do
        return c :: close :: (← layoutFrom style depth (some c) cs.tail)
      else if style.collapse ≤ depth then do
        let rest ← layoutFrom style depth (some c) (skipGroup 1 cs)
        return c :: '.' :: '.' :: '.' :: close :: rest
      else do
        let line ← lineBreak style (depth + 1)
        return c :: line ++ (← layoutFrom style (depth + 1) (some c) cs)
    | none =>
      if isCloser c then do
        let line ← lineBreak style (depth - 1)
        return line ++ c :: (← layoutFrom style (depth - 1) (some c) cs)
      else if c = ',' then do
        let line ← lineBreak style depth
        return c :: line ++ (← layoutFrom style depth (some c) (cs.dropWhile isBlank))
      else do
        return c :: (← layoutFrom style depth (some c) cs)
termination_by cs => cs.length
decreasing_by
  all_goals simp only [List.length_cons]
  · exact Nat.lt_succ_self _
  · exact Nat.lt_succ_of_le (by simp)
  · exact Nat.lt_succ_of_le (length_skipGroup_le 1 cs)
  · exact Nat.lt_succ_self _
  · exact Nat.lt_succ_self _
  · exact Nat.lt_succ_of_le (List.dropWhile_sublist _).length_le
  · exact Nat.lt_succ_self _

/-- The layout of a type string, without the blanks around it. -/
def layout (style : Style) (s : String) : Checked String := do
  return String.ofList (← layoutFrom style 0 none (trim s.toList))

end TensorCalculus.Layout
