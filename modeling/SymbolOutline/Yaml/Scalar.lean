import SymbolOutline.Text.Hex
import SymbolOutline.Yaml.Cursor

/-
The texts in a YAML text: in quotes, plain, and as blocks of lines. Within a text one line end counts
as a space, and of more the first does not count. Texts being read are kept with their last character
first.
-/

namespace SymbolOutline.Yaml

/-- How a text is written. -/
inductive Style where
  | plain | quoted | literal | folded
deriving DecidableEq, Repr

/-! ## Blanks and line ends within a text -/

/-- The blanks and line ends between two words. -/
structure Gap where
  /-- There is a line end. -/
  broken : Bool
  /-- The blanks before any line end, the last first. -/
  blanks : List Char
  /-- The first line end. -/
  first : List Char
  /-- The other line ends. -/
  more : List Char
deriving Repr

namespace Gap

/-- Nothing between two words. -/
def none : Gap := ⟨false, [], [], []⟩

/-- What a gap counts as. -/
def text (g : Gap) : List Char :=
  if !g.broken then g.blanks.reverse
  else if g.first = ['\n'] then (if g.more = [] then [' '] else g.more)
  else g.first ++ g.more

/-- Reads on in a gap. A tab behind a line end must not stand before column `margin`. -/
def read? (margin : Nat) : (fuel : Nat) → Gap → Cursor → Option (Gap × Cursor)
  | 0, g, c => some (g, c)
  | fuel + 1, g, c =>
    match c.peek 0 with
    | Option.none => some (g, c)
    | some x =>
      if isBlank x then
        if g.broken && c.column < margin && x = '\t' then Option.none
        else read? margin fuel (if g.broken then g else { g with blanks := x :: g.blanks }) c.skip
      else if isBreak x then
        let (mark, c) := c.readBreak
        let g := if g.broken then { g with more := g.more ++ mark }
          else { g with broken := true, blanks := [], first := mark }
        read? margin fuel g c
      else some (g, c)

end Gap

/-! ## Texts in quotes -/

/-- The character that an escape of one character stands for. -/
def shortEscape? : Char → Option Char
  | '0' => some '\x00'
  | 'a' => some '\x07'
  | 'b' => some '\x08'
  | 't' => some '\t'
  | '\t' => some '\t'
  | 'n' => some '\n'
  | 'v' => some '\x0b'
  | 'f' => some '\x0c'
  | 'r' => some '\r'
  | 'e' => some '\x1b'
  | ' ' => some ' '
  | '"' => some '"'
  | '/' => some '/'
  | '\\' => some '\\'
  | 'N' => some (Char.ofNat 0x85)
  | '_' => some (Char.ofNat 0xa0)
  | 'L' => some (Char.ofNat 0x2028)
  | 'P' => some (Char.ofNat 0x2029)
  | _ => none

/-- The number of digits behind an escape that gives a character by number. -/
def escapeDigits? : Char → Option Nat
  | 'x' => some 2
  | 'u' => some 4
  | 'U' => some 8
  | _ => none

/-- Reads an escape behind its backslash. -/
def escape? (c : Cursor) : Option (Char × Cursor) := do
  let x ← c.peek 0
  match shortEscape? x with
  | some y => return (y, c.skip)
  | none =>
    let count ← escapeDigits? x
    let (n, rest) ← Text.takeHex? count c.skip.rest
    if (0xd800 ≤ n && n ≤ 0xdfff) || 0x10ffff < n then none
    else return (Char.ofNat n, { c with
      rest := rest
      offset := c.offset + 1 + count
      column := c.column + 1 + count })

/-- Reads a word of a text in quotes. The result says whether the word ends with a line end that a
backslash takes out. -/
def quotedWord? (single : Bool) : (fuel : Nat) → List Char → Cursor →
    Option (List Char × Cursor × Bool)
  | 0, done, c => some (done, c, false)
  | fuel + 1, done, c =>
    match c.peek 0 with
    | none => some (done, c, false)
    | some x =>
      if isBlank x || isBreak x then some (done, c, false)
      else if single then
        if x = '\'' then
          if c.peek 1 = some '\'' then quotedWord? single fuel ('\'' :: done) c.skip.skip
          else some (done, c, false)
        else quotedWord? single fuel (x :: done) c.skip
      else if x = '"' then some (done, c, false)
      else if x = '\\' then
        if c.sees 1 isBreak then some (done, c.skip.readBreak.2, true)
        else
          match escape? c.skip with
          | some (y, c) => quotedWord? single fuel (y :: done) c
          | none => none
      else quotedWord? single fuel (x :: done) c.skip

/-- Reads the rest of a text in quotes. -/
def quotedRest? (single : Bool) : (fuel : Nat) → List Char → Cursor → Option (String × Cursor)
  | 0, _, _ => none
  | fuel + 1, done, c =>
    if c.atDocumentBoundary || c.rest = [] then none
    else
      (quotedWord? single c.fuel done c).bind fun (done, c, joined) =>
        if c.at_ (if single then '\'' else '"') then some (String.ofList done.reverse, c.skip)
        else
          (Gap.read? 0 c.fuel { Gap.none with broken := joined } c).bind fun (g, c) =>
            quotedRest? single fuel (g.text.reverse ++ done) c

/-- Reads a text in quotes, from the opening quote on. -/
def quotedText? (single : Bool) (c : Cursor) : Option (String × Cursor) :=
  quotedRest? single c.fuel [] c.skip

/-! ## Plain texts -/

/-- The characters that collections in brackets are made with. -/
def isFlowSign (x : Char) : Bool := x = ',' || x = '[' || x = ']' || x = '\x7b' || x = '\x7d'

/-- Reads a word of a plain text. -/
def plainWord? (inFlow : Bool) : (fuel : Nat) → List Char → Cursor → Option (List Char × Cursor)
  | 0, done, c => some (done, c)
  | fuel + 1, done, c =>
    match c.peek 0 with
    | none => some (done, c)
    | some x =>
      if isBlank x || isBreak x then some (done, c)
      else if inFlow && x = ':' && c.sees 1 (fun y => isFlowSign y || y = '?') then none
      else if (x = ':' && c.endsWord 1) || (inFlow && isFlowSign x) then some (done, c)
      else plainWord? inFlow fuel (x :: done) c.skip

/-- Reads on in a plain text behind a gap. The result says whether the text ends behind a line end. -/
def plainRest? (inFlow : Bool) (margin : Nat) : (fuel : Nat) → List Char → Gap → Cursor →
    Option (String × Cursor × Bool)
  | 0, _, _, _ => none
  | fuel + 1, done, g, c =>
    if c.atDocumentBoundary || c.at_ '#' then some (String.ofList done.reverse, c, g.broken)
    else
      (plainWord? inFlow c.fuel [] c).bind fun (word, next) =>
        let (done, g) := if word = [] then (done, g) else (word ++ g.text.reverse ++ done, Gap.none)
        if next.sees 0 fun x => isBlank x || isBreak x then
          (Gap.read? margin next.fuel g next).bind fun (g, c) =>
            if !inFlow && c.column < margin then some (String.ofList done.reverse, c, g.broken)
            else plainRest? inFlow margin fuel done g c
        else some (String.ofList done.reverse, next, g.broken)

/-- Reads a plain text. Outside of brackets its lines must not start before column `margin`. -/
def plainText? (inFlow : Bool) (margin : Nat) (c : Cursor) : Option (String × Cursor × Bool) :=
  plainRest? inFlow margin c.fuel [] .none c

/-! ## Blocks of lines -/

/-- What becomes of the line ends at the end of a block. -/
inductive Chomping where
  | strip | clip | keep
deriving DecidableEq, Repr

/-- Reads the header of a block: its chomping, and how far it is indented if that is said. -/
def blockHeader? (c : Cursor) : Option (Chomping × Option Nat × Cursor) := do
  let chomping? : Char → Option Chomping
    | '+' => some .keep
    | '-' => some .strip
    | _ => none
  let digit? (x : Char) : Option Nat := if x.isDigit then some (x.toNat - 48) else none
  let first := (c.peek 0).bind chomping?
  let c := if first.isSome then c.skip else c
  let width := (c.peek 0).bind digit?
  let c := if width.isSome then c.skip else c
  let last := if first.isSome then none else (c.peek 0).bind chomping?
  let c := if last.isSome && width.isSome then c.skip else c
  let chomping := (first <|> (if width.isSome then last else none)).getD .clip
  if width = some 0 then none
  else
    let (_, c) := c.readWhile isBlank
    let c := if c.at_ '#' then c.readLine.2 else c
    if !c.endsLine 0 then none
    else return (chomping, width, c.readBreak.2)

/-- Reads empty lines and the indentation of the next line. As long as it is not known how far the
block is indented, the deepest line so far is kept in mind. -/
def blockBreaks? (width : Option Nat) : (fuel deepest : Nat) → List Char → Cursor →
    Option (Nat × List Char × Cursor)
  | 0, deepest, breaks, c => some (deepest, breaks, c)
  | fuel + 1, deepest, breaks, c =>
    let spaces := (c.rest.takeWhile (· = ' ')).length
    let count := match width with
      | some w => min spaces (w - c.column)
      | none => spaces
    let c := { c with
      rest := c.rest.drop count
      offset := c.offset + count
      column := c.column + count }
    let deepest := max deepest c.column
    if width.all (c.column < ·) && c.at_ '\t' then none
    else if c.sees 0 isBreak then
      let (mark, c) := c.readBreak
      blockBreaks? width fuel deepest (breaks ++ mark) c
    else some (deepest, breaks, c)

/-- Reads on in a block that is indented by `width`. `ended` is the end of the line before, and `empty`
the line ends of the empty lines behind it. -/
def blockLines? (folds : Bool) (width : Nat) : (fuel : Nat) → (done : List Char) →
    (ended empty : List Char) → (blankBefore : Bool) → Cursor →
    Option (List Char × List Char × List Char × Cursor)
  | 0, done, ended, empty, _, c => some (done, ended, empty, c)
  | fuel + 1, done, ended, empty, blankBefore, c =>
    if c.column = width && c.rest ≠ [] then
      let blankHere := c.sees 0 isBlank
      let joint :=
        if folds && ended = ['\n'] && !blankBefore && !blankHere then
          (if empty = [] then [' '] else empty)
        else ended ++ empty
      let (line, c) := c.readLine
      let (ended, c) := c.readBreak
      (blockBreaks? (some width) c.fuel 0 [] c).bind fun (_, empty, c) =>
        blockLines? folds width fuel (line.reverse ++ joint.reverse ++ done) ended empty blankHere c
    else some (done, ended, empty, c)

/-- Reads a block, behind the sign that starts it. `indent` is how far the lines around are indented;
it is negative outside of all collections. -/
def blockText? (folds : Bool) (indent : Int) (c : Cursor) : Option (String × Cursor) :=
  (blockHeader? c).bind fun (chomping, width, c) =>
    let outer := (max indent 0).toNat
    let known := width.map fun w => outer + w
    (blockBreaks? known c.fuel 0 [] c).bind fun (deepest, empty, c) =>
      let width := known.getD (max (max deepest (indent + 1).toNat) 1)
      (blockLines? folds width c.fuel [] [] empty false c).map fun (done, ended, empty, c) =>
        let tail := match chomping with
          | .strip => []
          | .clip => ended
          | .keep => ended ++ empty
        (String.ofList (done.reverse ++ tail), c)

end SymbolOutline.Yaml
