import TensorCalculus.Binary.Decimal
import TensorCalculus.Concept.Basic
import TensorCalculus.Expr.Basic
import TensorCalculus.Index.Symbol
import TensorCalculus.Json.Number
import TensorCalculus.Json.Reader
import TensorCalculus.Memory.Storage

/-!
# Interchange of values

The JSON forms of indices, arrays and names. An `Exchange` reads and writes one type of values; what
it writes, it reads back.
-/

namespace TensorCalculus

structure Exchange (α : Type) where
  read : Json → Option α
  write : α → String

namespace Exchange
variable {α : Type}

/-- The value that a text spells. -/
def ofText? (e : Exchange α) (s : String) : Option α := (Json.ofText? s).bind e.read

/-- A count below the limit. -/
def below (limit : Nat) : Exchange Nat where
  read
    | .number n => n.count?.bind fun k => if k < limit then some k else none
    | _ => none
  write := toString

/-- A double, which may be written as an integer. -/
def double : Exchange (Binary .double) where
  read
    | .number n => n.double?
    | _ => none
  write := DecimalLayout.interchange.text

/-- The same form under a change of type. -/
def map {β : Type} (e : Exchange α) (f : α → β) (g : β → α) : Exchange β where
  read j := (e.read j).map f
  write b := e.write (g b)

/-- An array of values. -/
def list (e : Exchange α) : Exchange (List α) where
  read
    | .array items => items.mapM e.read
    | _ => none
  write xs := "[" ++ ",".intercalate (xs.map e.write) ++ "]"

/-- The name in a string, or in an object with one member that is null. -/
def nameOf? : Json → Option String
  | .string s => s
  | .object [(key, .null)] => key
  | _ => none

/-- One of finitely many values, by name. -/
def named (all : List α) (name : α → String) : Exchange α where
  read j := (nameOf? j).bind fun s => all.find? fun a => name a == s
  write a := "\"" ++ name a ++ "\""

/-! ### The types -/

def index : Exchange Index := (below UInt32.size).map (fun n => ⟨UInt32.ofNat n⟩) fun i => i.symbol.toNat

def indexList : Exchange (List Index) := list index

/-- The only member with this key. -/
def member? (members : List (Option String × Json)) (key : String) : Option Json :=
  match members.filter fun m => m.1 == some key with
  | [m] => some m.2
  | _ => none

/-- An object with the two numbers, or an array of them. -/
def componentIndex : Exchange ComponentIndex where
  read
    | .array [value, count] => do
      return ⟨← (below Count.limit).read value, ← (below Count.limit).read count⟩
    | .object members => do
      if members.any fun m => m.1.isNone then none
      let value ← (below Count.limit).read (← member? members "value")
      return ⟨value, ← (below Count.limit).read (← member? members "count")⟩
    | _ => none
  write k := s!"\x7b\"value\":{k.value},\"count\":{k.count}\x7d"

/-- Whether a check is made. -/
def checkName (checked : Bool) : String := if checked then "True" else "False"

def check : Exchange Bool := named [true, false] checkName

def qualifier : Exchange Qualifier :=
  named [.procedural, .constMemory, .nonconstMemory] Qualifier.name

def powerKind : Exchange PowerKind := named [.symmetric, .exterior] PowerKind.name

def embedding : Exchange Embedding := named [.natural, .orthonormal] Embedding.name

def property : Exchange PropertyId := named PropertyId.all PropertyId.name

def shape : Exchange Structure := named Structure.all Structure.name

/-- The components of an owned array. -/
def components : Exchange (List (Binary .double)) := list double

end Exchange

end TensorCalculus
