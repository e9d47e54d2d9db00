import SymbolOutline.Decimal.Shortest
import SymbolOutline.Text.Hex

/-
JSON values. Whole numbers written as such are kept apart from all other numbers, which are doubles.
-/

namespace SymbolOutline

/-- A JSON value. -/
inductive Json where
  | null
  | bool (value : Bool)
  | int (value : Int)
  | real (value : Float)
  | str (value : String)
  | arr (members : List Json)
  | obj (members : List (String × Json))

namespace Json

instance : Inhabited Json := ⟨null⟩

/-- The member of an object with a name. Of several the last counts. -/
def field? (name : String) : Json → Option Json
  | obj members => (members.reverse.find? fun m => m.1 = name).map Prod.snd
  | _ => none

/-- The text that a value is. -/
def str? : Json → Option String
  | str s => some s
  | _ => none

/-- The natural number that a value is. -/
def nat? : Json → Option Nat
  | int n => if 0 ≤ n then some n.toNat else none
  | _ => none

/-- The whole number that a value is. -/
def int? : Json → Option Int
  | int n => some n
  | _ => none

/-- The truth value that a value is. -/
def bool? : Json → Option Bool
  | bool b => some b
  | _ => none

/-- The members of the list that a value is. -/
def arr? : Json → Option (List Json)
  | arr members => some members
  | _ => none

/-- A list of the images of things. -/
def list {α : Type} (f : α → Json) (xs : List α) : Json := arr (xs.map f)

/-- A natural number as a value. -/
def nat (n : Nat) : Json := int n

/-- What is there as a value, `null` standing for nothing. -/
def option {α : Type} (f : α → Json) : Option α → Json
  | none => null
  | some a => f a

/-- How doubles are written: without an exponent from `10 ^ -5` up to but not including `10 ^ 16`, and
never like whole numbers. -/
def numberStyle : Decimal.Style := ⟨-5, 15, ".0", "+"⟩

/-- A double in writing. -/
def realText (x : Float) : String := Decimal.text numberStyle x

/-- A character inside a quoted text. -/
def quoteChar (c : Char) : List Char :=
  if c = '"' then ['\\', '"']
  else if c = '\\' then ['\\', '\\']
  else if c = '\n' then ['\\', 'n']
  else if c = '\r' then ['\\', 'r']
  else if c = '\t' then ['\\', 't']
  else if c.toNat < 0x20 then
    ['\\', 'u', '0', '0', Text.hexDigit (c.toNat / 16), Text.hexDigit (c.toNat % 16)]
  else [c]

/-- A text in quotes. -/
def quote (s : String) : String := "\"" ++ String.ofList (s.toList.flatMap quoteChar) ++ "\""

mutual
/-- The pieces of a value in writing. -/
def pieces : Json → List String
  | null => ["null"]
  | bool true => ["true"]
  | bool false => ["false"]
  | int n => [toString n]
  | real x => [realText x]
  | str s => [quote s]
  | arr members => "[" :: memberPieces members ++ ["]"]
  | obj members => "\x7b" :: fieldPieces members ++ ["\x7d"]
/-- The pieces of the members of a list in writing. -/
def memberPieces : List Json → List String
  | [] => []
  | [v] => pieces v
  | v :: vs => pieces v ++ "," :: memberPieces vs
/-- The pieces of the members of an object in writing. -/
def fieldPieces : List (String × Json) → List String
  | [] => []
  | [(name, v)] => quote name :: ":" :: pieces v
  | (name, v) :: vs => quote name :: ":" :: (pieces v ++ "," :: fieldPieces vs)
end

/-- A value in writing. -/
def text (v : Json) : String := String.join (pieces v)

end Json

end SymbolOutline
