import SymbolOutline.Text.Hex
import SymbolOutline.Yaml.Cursor

/-
Tags: how they are written, and the octets that they are. In a tag an octet may be written as two
hexadecimal digits behind a percent sign.
-/

namespace SymbolOutline.Yaml

/-- The characters of names. -/
def isNameChar (x : Char) : Bool := x.isAlphanum || x = '_' || x = '-'

/-- The characters of tags. -/
def isTagChar (x : Char) : Bool :=
  isNameChar x || x ∈ [';', '/', '?', ':', '@', '&', '=', '+', '$', '.', '%', '!', '~', '*', '\'', '(', ')']

/-- The characters of tags between angle brackets. -/
def isUriChar (x : Char) : Bool := isTagChar x || x ∈ [',', '[', ']']

/-- A tag or a part of one, as octets. They need not be UTF-8. -/
abbrev Tag := List UInt8

namespace Tag

/-- The octets of a text. -/
def ofString (s : String) : Tag := s.toUTF8.data.toList

/-- The tag that says nothing. -/
def plain : Tag := ofString "!"

/-- The prefix of the tags that everyone knows. -/
def common : Tag := ofString "tag:yaml.org,2002:"

/-- The name of a tag that only this text knows. -/
def localName? : Tag → Option String
  | 0x21 :: name => String.fromUTF8? ⟨name.toArray⟩
  | _ => none

/-! ## Escapes -/

/-- How many octets follow the first octet of a character. -/
def trailing? (octet : UInt8) : Option Nat :=
  if octet < 0x80 then some 0
  else if octet < 0xc0 then none
  else if octet < 0xe0 then some 1
  else if octet < 0xf0 then some 2
  else if octet < 0xf8 then some 3
  else none

/-- The octets that characters stand for, when `owed` octets of an escaped character have yet to come.
They must be escaped like its first. -/
def decode? : (owed : Nat) → List Char → Option Tag
  | owed, '%' :: x :: y :: cs =>
    (Text.hexNumber? [x, y]).bind fun n =>
      let octet := n.toUInt8
      let owed? := match owed with
        | 0 => trailing? octet
        | owed + 1 => if 0x80 ≤ octet && octet < 0xc0 then some owed else none
      owed?.bind fun owed => (decode? owed cs).map (octet :: ·)
  | 0, x :: cs => if x = '%' then none else (decode? 0 cs).map (x.toNat.toUInt8 :: ·)
  | 0, [] => some []
  | _ + 1, _ => none

/-! ## Reading -/

/-- Reads characters that satisfy `p` and make a part of a tag. There must be some. The part ends in
front of a NUL, which can only be escaped. -/
def part? (p : Char → Bool) (c : Cursor) : Option (Tag × Cursor) :=
  let (word, c) := c.readWhile p
  if word = [] then none else (decode? 0 word).map fun octets => (octets.takeWhile (· ≠ 0), c)

/-- Reads a handle: a name between exclamation marks, or one exclamation mark. -/
def handle (c : Cursor) : String × Cursor :=
  let (name, next) := c.skip.readWhile isNameChar
  if next.at_ '!' then (String.ofList ('!' :: name ++ ['!']), next.skip) else ("!", c.skip)

/-- Reads the handle and the suffix of a tag. -/
def parts? (c : Cursor) : Option (String × Tag × Cursor) :=
  if c.peek 1 = some '<' then
    (part? isUriChar c.skip.skip).bind fun (suffix, c) =>
      if c.at_ '>' then some ("", suffix, c.skip) else none
  else
    let (sign, c) := handle c
    if sign = "!" then
      if c.sees 0 isTagChar then
        (part? isTagChar c).map fun (suffix, c) =>
          if suffix = [] then ("", plain, c) else (sign, suffix, c)
      else some ("", plain, c)
    else (part? isTagChar c).map fun (suffix, c) => (sign, suffix, c)

end Tag

end SymbolOutline.Yaml
