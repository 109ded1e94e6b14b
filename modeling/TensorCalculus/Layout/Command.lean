import TensorCalculus.Layout.Basic

/-!
# The layout command

The command lays out its input line by line. Its arguments are the indentation and the depth from
which on groups are collapsed. A line that is not text ends it.
-/

namespace TensorCalculus.Layout

/-! ### Arguments -/

/-- Why an argument is not a count. -/
inductive CountError where
  | empty
  | invalidDigit
  | tooLarge
deriving DecidableEq, Repr

def CountError.name : CountError → String
  | .empty => "Empty"
  | .invalidDigit => "InvalidDigit"
  | .tooLarge => "PosOverflow"

/-- Reads decimal digits behind the number `n`. -/
def readDigits (n : Nat) : List Char → Except CountError Nat
  | [] => .ok n
  | c :: cs =>
    if !c.isDigit then .error .invalidDigit
    else
      let next := 10 * n + (c.toNat - '0'.toNat)
      if next < Count.limit then readDigits next cs else .error .tooLarge

/-- Reads a count, which may have a plus sign. -/
def readCount : List Char → Except CountError Nat
  | [] => .error .empty
  | ['+'] => .error .invalidDigit
  | '+' :: cs => readDigits 0 cs
  | cs => readDigits 0 cs

/-- The style that the arguments ask for. -/
def Style.ofArguments (arguments : List String) : Except CountError Style := do
  let indent ← match arguments with
    | first :: _ => readCount first.toList
    | [] => .ok 4
  let collapse ← match arguments with
    | _ :: second :: _ => readCount second.toList
    | _ => .ok Count.largest
  return ⟨indent, collapse⟩

/-! ### Lines -/

/-- Cuts bytes into lines; a line ends at a line feed. The last line need not end. -/
def splitLines : (line : List UInt8) → List UInt8 → List (List UInt8)
  | [], [] => []
  | line, [] => [line.reverse]
  | line, b :: bytes =>
    if b = 10 then (b :: line).reverse :: splitLines [] bytes else splitLines (b :: line) bytes

/-- A line without its end, if it is text. -/
def readLine (line : List UInt8) : Option String := do
  let s ← String.fromUTF8? (ByteArray.mk line.toArray)
  match s.toList.reverse with
  | '\n' :: '\r' :: cs => return String.ofList cs.reverse
  | '\n' :: cs => return String.ofList cs.reverse
  | _ => return s

/-! ### The command -/

structure Report where
  code : Nat
  output : String
  diagnostics : String
deriving DecidableEq, Repr

/-- A report of a failure after some output. -/
def failed (output reason : String) : Report := ⟨1, output, "Error: " ++ reason ++ "\n"⟩

/-- Lays out line after line behind the output so far. -/
def runLines (style : Style) (output : String) : List (List UInt8) → Checked Report
  | [] => .ok ⟨0, output, ""⟩
  | line :: lines =>
    match readLine line with
    | none =>
      .ok (failed output ("Error \x7b kind: InvalidData, " ++
        "message: \"stream did not contain valid UTF-8\" \x7d"))
    | some s => do runLines style (output ++ (← layout style s) ++ "\n") lines

/-- Runs the command. -/
def run (arguments : List String) (input : List UInt8) : Checked Report :=
  match Style.ofArguments arguments with
  | .error e => .ok (failed "" ("ParseIntError \x7b kind: " ++ e.name ++ " \x7d"))
  | .ok style => runLines style "" (splitLines [] input)

end TensorCalculus.Layout
