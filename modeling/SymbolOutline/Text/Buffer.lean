import SymbolOutline.Text.Rope

/-
Editable texts that are kept as lists of characters. A buffer breaks into lines at every line break that
Unicode knows: line feed, line tabulation, form feed, carriage return (with a line feed behind it, one
break), next line, line separator and paragraph separator. A text that ends in a break has one more line,
which is empty.
-/

namespace SymbolOutline

/-- An editable text, as a list of characters. -/
structure Buffer where
  chars : List Char
deriving DecidableEq, Repr

namespace Text

/-- The characters that break lines. -/
def isLineBreak (c : Char) : Bool :=
  (0x0a ≤ c.toNat && c.toNat ≤ 0x0d) || c.toNat = 0x85 || c.toNat = 0x2028 || c.toNat = 0x2029

/-- A text cut behind every line break. The last piece is what follows the last break. -/
def splitBreaks : List Char → List (List Char)
  | [] => [[]]
  | '\r' :: '\n' :: cs => ['\r', '\n'] :: splitBreaks cs
  | c :: cs =>
    if isLineBreak c then [c] :: splitBreaks cs
    else
      match splitBreaks cs with
      | [] => [[c]]
      | piece :: pieces => (c :: piece) :: pieces

end Text

namespace Buffer

/-- A buffer with nothing in it. -/
def empty : Buffer := ⟨[]⟩

/-- A buffer with a text in it. -/
def ofString (s : String) : Buffer := ⟨s.toList⟩

/-- The text of a buffer. -/
def text (b : Buffer) : String := String.ofList b.chars

/-- The number of characters in a buffer. -/
def length (b : Buffer) : Nat := b.chars.length

instance : Rope Buffer where
  ofString := ofString
  text := text
  length := length
  remove b start stop := ⟨b.chars.take start ++ b.chars.drop stop⟩
  insert b offset new := ⟨b.chars.take offset ++ new.toList ++ b.chars.drop offset⟩
  lineCount b := (Text.splitBreaks b.chars).length
  line b n := String.ofList ((Text.splitBreaks b.chars)[n]?.getD [])
  lines b := (Text.splitBreaks b.chars).map String.ofList

/-- Puts a text in place of the characters from `start` to `stop`, as far as there are any. -/
def replace (b : Buffer) (start stop : Nat) (new : String) : Buffer := Rope.replace b start stop new

/-- The lines of a buffer, without their ends. -/
def lines (b : Buffer) : TextLines := Rope.textLines b

end Buffer

end SymbolOutline
