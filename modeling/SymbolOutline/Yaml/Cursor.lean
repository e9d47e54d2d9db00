/-
A place in a YAML text: what is left of the text, and the line and column reached.
-/

namespace SymbolOutline.Yaml

/-- A place in a text. -/
structure Cursor where
  rest : List Char
  /-- How many octets of UTF-8 were read. -/
  offset : Nat
  line : Nat
  column : Nat
deriving Repr

/-- Spaces and tabs. -/
def isBlank (c : Char) : Bool := c = ' ' || c = '\t'

/-- The characters that end lines. -/
def isBreak (c : Char) : Bool :=
  c = '\n' || c = '\r' || c.toNat = 0x85 || c.toNat = 0x2028 || c.toNat = 0x2029

/-- The mark of byte order. -/
def isByteOrderMark (c : Char) : Bool := c.toNat = 0xfeff

/-- The characters that a text may consist of. -/
def isAllowed (c : Char) : Bool :=
  c = '\t' || c = '\n' || c = '\r' || (0x20 ≤ c.toNat && c.toNat ≤ 0x7e) || c.toNat = 0x85 ||
    (0xa0 ≤ c.toNat && c.toNat ≤ 0xd7ff) || (0xe000 ≤ c.toNat && c.toNat ≤ 0xfffd) ||
    0x10000 ≤ c.toNat

namespace Cursor

/-- How many octets of UTF-8 characters take. -/
def octets (cs : List Char) : Nat := cs.foldl (fun n c => n + c.utf8Size) 0

/-- The start of a text. -/
def start (cs : List Char) : Cursor := ⟨cs, 0, 0, 0⟩

/-- The character some places on; none is there behind the end. -/
def peek (c : Cursor) (n : Nat) : Option Char := c.rest[n]?

/-- A character that satisfies `p` is some places on. -/
def sees (c : Cursor) (n : Nat) (p : Char → Bool) : Bool := (c.peek n).any p

/-- A certain character is next. -/
def at_ (c : Cursor) (x : Char) : Bool := c.peek 0 = some x

/-- The line or the text ends some places on. -/
def endsLine (c : Cursor) (n : Nat) : Bool := (c.peek n).all isBreak

/-- A word ends some places on: there is a blank, or the line or the text ends. -/
def endsWord (c : Cursor) (n : Nat) : Bool := (c.peek n).all fun x => isBlank x || isBreak x

/-- Reads a character that does not end a line. -/
def skip (c : Cursor) : Cursor := { c with
  rest := c.rest.drop 1
  offset := c.offset + octets (c.rest.take 1)
  column := c.column + 1 }

/-- Reads the end of a line: the break that it counts as, and the start of the next line. -/
def readBreak (c : Cursor) : List Char × Cursor :=
  match c.rest with
  | '\r' :: '\n' :: cs => (['\n'], ⟨cs, c.offset + 2, c.line + 1, 0⟩)
  | x :: cs =>
    ([if x.toNat = 0x2028 || x.toNat = 0x2029 then x else '\n'],
      ⟨cs, c.offset + x.utf8Size, c.line + 1, 0⟩)
  | [] => ([], c)

/-- Reads characters as long as they satisfy `p`. None of them may end a line. -/
def readWhile (c : Cursor) (p : Char → Bool) : List Char × Cursor :=
  let word := c.rest.takeWhile p
  (word, { c with
    rest := c.rest.drop word.length
    offset := c.offset + octets word
    column := c.column + word.length })

/-- Reads up to the end of the line. -/
def readLine (c : Cursor) : List Char × Cursor := c.readWhile fun x => !isBreak x

/-- A line that starts or ends a document begins here. -/
def atDocumentLine (c : Cursor) (sign : List Char) : Bool :=
  c.column = 0 && sign.isPrefixOf c.rest && c.endsWord sign.length

/-- A line that starts a document. -/
def startSign : List Char := ['-', '-', '-']

/-- A line that ends a document. -/
def endSign : List Char := ['.', '.', '.']

/-- A line that starts or ends a document begins here. -/
def atDocumentBoundary (c : Cursor) : Bool :=
  c.atDocumentLine startSign || c.atDocumentLine endSign

/-- Enough steps to read all that is left, if each reads a character. -/
def fuel (c : Cursor) : Nat := c.rest.length + 1

end Cursor

end SymbolOutline.Yaml
