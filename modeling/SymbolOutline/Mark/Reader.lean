import SymbolOutline.Mark.Basic

/-
Reading marks, one character at a time. The reader is in one of the stages of `Stage`; each
says what has been read of the line so far, and nothing else is remembered. A backslash makes the
next character part of the text, whatever it is, save that it has no effect on the end of a line.

The keyword ends at the first space at which the text since the last space ends with a keyword, so
that it may be glued to what is before it, such as the sign of a comment. Of several keywords the
longest counts. The name is what follows up to the next space, and the description what follows that
up to the end of the line. Only a closer may do without a name.
-/

namespace SymbolOutline

namespace Mark

/-- The characters that end a line. -/
def endsLine (c : Char) : Bool := c = '\n' || c = '\r'

/-- The characters that separate the parts of a mark. -/
def isSpace (c : Char) : Bool :=
  c = ' ' || c = '\t' || c = '\n' || c = '\r' || c = '\x0c' || c = '\x0b'

/-- A character and the column it stands in. -/
structure Placed where
  char : Char
  column : Nat
deriving DecidableEq, Repr

/-- What has been read of a line. Texts are kept with their last character first; `escaping` says that
a backslash came last. -/
inductive Stage where
  /-- Somewhere before the end of the keyword, with the text since the last space. -/
  | leading (word : List Placed) (escaping : Bool)
  /-- Behind the keyword. -/
  | afterKeyword (marker : Marker) (keyword : Token)
  /-- In the name, which starts in column `start`. -/
  | inName (marker : Marker) (keyword : Token) (start : Nat) (word : List Char) (escaping : Bool)
  /-- Behind the name. -/
  | afterName (marker : Marker) (keyword name : Token)
  /-- In the description, which starts in column `start`. -/
  | inDescription (marker : Marker) (keyword name : Token) (start : Nat) (word : List Char)
      (escaping : Bool)
  /-- At the end of a line with a mark. -/
  | complete (mark : Mark)
  /-- At the end of a line that lacks a name. -/
  | nameless
deriving DecidableEq, Repr

/-- The keyword that a word ends with, what it marks, and the column it starts in. Of several the
longest counts, and of those as long the last. -/
def keyword? (ks : Keywords) (word : List Placed) : Option (Marker × String × Nat) :=
  let candidates := ks.entries.filterMap fun (marker, text) =>
    if text.toList.reverse.isPrefixOf (word.map Placed.char) then
      (word[text.length - 1]?).map fun p => (marker, text, p.column)
    else none
  candidates.foldl
    (fun best c => match best with
      | none => some c
      | some b => if b.2.1.length ≤ c.2.1.length then some c else some b)
    none

/-- A part of a line from one column up to another. -/
def token (line : Nat) (text : String) (start stop : Nat) : Token :=
  ⟨text, .between ⟨line, start⟩ ⟨line, stop⟩⟩

namespace Stage

/-- Before the first character of a line. -/
def start : Stage := leading [] false

/-- A space, or the end of the line, behind a keyword. -/
def spaceAfterKeyword (marker : Marker) (keyword : Token) (c : Char) : Stage :=
  if endsLine c then
    if marker = .closer then complete (.ofParts marker keyword none none) else nameless
  else afterKeyword marker keyword

/-- A space, or the end of the line, behind a name. -/
def spaceAfterName (marker : Marker) (keyword name : Token) (c : Char) : Stage :=
  if endsLine c then complete (.ofParts marker keyword (some name) none)
  else afterName marker keyword name

/-- A space, or the end of the line, in column `column` of a line before its keyword has ended. -/
def spaceInLeading (ks : Keywords) (line column : Nat) (word : List Placed) (c : Char) : Stage :=
  match keyword? ks word with
  | none => start
  | some (marker, text, first) => spaceAfterKeyword marker (token line text first column) c

/-- The end of a line in its description, which may be empty after all. -/
def endDescription (marker : Marker) (keyword name : Token) (line start column : Nat)
    (word : List Char) : Stage :=
  let description :=
    if word = [] then none else some (token line (String.ofList word.reverse) start column)
  complete (.ofParts marker keyword (some name) description)

/-- Reads the character in a column of a line. -/
def step (ks : Keywords) (line column : Nat) (c : Char) : Stage → Stage
  | leading word escaping =>
    if escaping && !endsLine c then leading (⟨c, column⟩ :: word) false
    else if c = '\\' then leading word true
    else if isSpace c then spaceInLeading ks line column word c
    else leading (⟨c, column⟩ :: word) false
  | afterKeyword marker keyword =>
    if isSpace c then spaceAfterKeyword marker keyword c
    else if c = '\\' then inName marker keyword column [] true
    else inName marker keyword column [c] false
  | inName marker keyword first word escaping =>
    if escaping && !endsLine c then inName marker keyword first (c :: word) false
    else if c = '\\' then inName marker keyword first word true
    else if isSpace c then
      spaceAfterName marker keyword (token line (String.ofList word.reverse) first column) c
    else inName marker keyword first (c :: word) false
  | afterName marker keyword name =>
    if isSpace c then spaceAfterName marker keyword name c
    else if c = '\\' then inDescription marker keyword name column [] true
    else inDescription marker keyword name column [c] false
  | inDescription marker keyword name first word escaping =>
    if endsLine c then endDescription marker keyword name line first column word
    else if escaping then inDescription marker keyword name first (c :: word) false
    else if c = '\\' then inDescription marker keyword name first word true
    else inDescription marker keyword name first (c :: word) false
  | complete mark => complete mark
  | nameless => nameless

/-- The mark of a line that has ended. -/
def mark? : Stage → Option Mark
  | complete mark => some mark
  | _ => none

end Stage

/-- A reader of marks, somewhere in a line. -/
structure Reader where
  keywords : Keywords
  stage : Stage
  /-- The column of the next character. -/
  column : Nat
  /-- The line of the last characters. -/
  line : Nat
deriving DecidableEq, Repr

namespace Reader

/-- A reader at the start of a line. -/
def new (keywords : Keywords) : Reader := ⟨keywords, .start, 0, 0⟩

/-- Goes back to the start of a line. -/
def reset (r : Reader) : Reader := { r with stage := .start, column := 0 }

/-- Goes back to the start of a line, to read on with other keywords. -/
def setKeywords (r : Reader) (keywords : Keywords) : Reader := { r.reset with keywords }

/-- Reads one character. -/
def readChar (r : Reader) (c : Char) : Reader :=
  { r with stage := r.stage.step r.keywords r.line r.column c, column := r.column + 1 }

/-- Reads a part of a line. -/
def read (r : Reader) (part : String) (line : Nat) : Reader :=
  part.toList.foldl readChar { r with line }

/-- Ends the line: its mark, if it has one, and the reader at the start of the next line. -/
def finish (r : Reader) : Option Mark × Reader :=
  let ended := r.readChar '\n'
  (ended.stage.mark?, ended.reset)

end Reader

end Mark

end SymbolOutline
