import SymbolOutline.Yaml.Scalar
import SymbolOutline.Yaml.Tag

/-
The tokens of a YAML text. Indentation becomes tokens that open and close collections. A text or a
collection in brackets may turn out to be the key of a mapping when a colon follows it on the same
line; the tokens that say so are then put in front of it.
-/

namespace SymbolOutline.Yaml

/-- A token. -/
inductive Token where
  | version
  | tagPrefix (handle : String) (octets : Tag)
  | documentStart | documentEnd | streamEnd
  | blockSequenceStart | blockMappingStart | blockEnd
  | flowSequenceStart | flowSequenceEnd | flowMappingStart | flowMappingEnd
  | blockEntry | flowEntry | key | value
  | alias (name : String)
  | anchor (name : String)
  | tag (handle : String) (suffix : Tag)
  | scalar (style : Style) (text : String)
deriving DecidableEq, Repr

/-- A place at which a key may have begun. -/
structure KeyPlace where
  /-- The number of tokens before it. -/
  before : Nat
  offset : Nat
  line : Nat
  column : Nat
  /-- Nothing but a key can stand there. -/
  required : Bool
deriving Repr

/-- The state of a scan. -/
structure Scanner where
  cursor : Cursor
  tokens : Array Token
  /-- How far the collection around is indented; -1 outside of all. -/
  indent : Int
  /-- How far the collections around that one are indented. -/
  outer : List Int
  /-- A key may begin here. -/
  keyAllowed : Bool
  /-- Where a key may have begun within the innermost brackets. -/
  keyPlace : Option KeyPlace
  /-- The same for all brackets around those. -/
  outerPlaces : List (Option KeyPlace)

namespace Scanner

/-- The scan before the first character. -/
def start (cs : List Char) : Scanner where
  cursor := .start cs
  tokens := #[]
  indent := -1
  outer := []
  keyAllowed := true
  keyPlace := none
  outerPlaces := []

/-- The scan is within brackets. -/
def inFlow (s : Scanner) : Bool := s.outerPlaces ≠ []

/-- Adds a token. -/
def push (s : Scanner) (t : Token) : Scanner := { s with tokens := s.tokens.push t }

/-- Reads some characters of one line, which make a token. -/
def take (s : Scanner) (count : Nat) (t : Token) : Scanner :=
  { s.push t with cursor := count.repeat Cursor.skip s.cursor }

/-- Puts a token in front of others. -/
def insertAt (s : Scanner) (n : Nat) (t : Token) : Scanner :=
  { s with tokens := s.tokens.extract 0 n ++ #[t] ++ s.tokens.extract n s.tokens.size }

/-- Closes the collections that are indented more than `column`, of which there are at most as many as
collections around. -/
def unroll (column : Int) (s : Scanner) : Scanner :=
  if s.inFlow then s else go s.outer s
where
  /-- Closes collections, given how far those around are indented. -/
  go : List Int → Scanner → Scanner
    | [], s => s
    | i :: is, s =>
      if column < s.indent then go is { s.push .blockEnd with indent := i, outer := is } else s

/-- Opens a collection if `column` is indented more than what is around. Its token goes in front of
others if `before` says how many are before it. -/
def roll (s : Scanner) (column : Nat) (before : Option Nat) (t : Token) : Scanner :=
  if !s.inFlow && s.indent < column then
    let s := { s with outer := s.indent :: s.outer, indent := column }
    match before with
    | some n => s.insertAt n t
    | none => s.push t
  else s

/-- No key has begun where one might have. There must be none that was required. -/
def dropKey? (s : Scanner) : Option Scanner :=
  if s.keyPlace.any KeyPlace.required then none else some { s with keyPlace := none }

/-- A key may begin here, if one may at all. -/
def saveKey? (s : Scanner) : Option Scanner :=
  if s.keyAllowed then
    s.dropKey?.map fun s => { s with keyPlace := some {
      before := s.tokens.size
      offset := s.cursor.offset
      line := s.cursor.line
      column := s.cursor.column
      required := !s.inFlow && s.indent = s.cursor.column } }
  else some s

/-- Forgets where a key may have begun if that is on another line or far away. -/
def expireKey? (s : Scanner) : Option Scanner :=
  match s.keyPlace with
  | none => some s
  | some k =>
    if k.line < s.cursor.line || k.offset + 1024 < s.cursor.offset then s.dropKey? else some s

/-! ## Between tokens -/

/-- Reads blanks, comments and line ends, and marks of byte order at the starts of lines. A tab is no
indentation. -/
def skipBetween : (fuel : Nat) → Scanner → Scanner
  | 0, s => s
  | fuel + 1, s =>
    let tabs := s.inFlow || !s.keyAllowed
    let c := s.cursor
    let c := if c.column = 0 && c.sees 0 isByteOrderMark then c.skip else c
    let (_, c) := c.readWhile fun x => x = ' ' || (tabs && x = '\t')
    let c := if c.at_ '#' then c.readLine.2 else c
    if c.sees 0 isBreak then
      skipBetween fuel { s with
        cursor := c.readBreak.2
        keyAllowed := s.keyAllowed || !s.inFlow }
    else { s with cursor := c }

/-! ## Signs -/

/-- Opens brackets. -/
def openFlow? (s : Scanner) (t : Token) : Option Scanner :=
  s.saveKey?.map fun s => { s.take 1 t with
    keyAllowed := true
    outerPlaces := s.keyPlace :: s.outerPlaces
    keyPlace := none }

/-- Closes brackets. -/
def closeFlow? (s : Scanner) (t : Token) : Option Scanner :=
  s.dropKey?.map fun s =>
    let s := { s.take 1 t with keyAllowed := false }
    match s.outerPlaces with
    | [] => s
    | k :: ks => { s with keyPlace := k, outerPlaces := ks }

/-- A comma within brackets. -/
def flowEntry? (s : Scanner) : Option Scanner :=
  s.dropKey?.map fun s => { s.take 1 .flowEntry with keyAllowed := true }

/-- The hyphen of a sequence. -/
def blockEntry? (s : Scanner) : Option Scanner :=
  if !s.inFlow && !s.keyAllowed then none
  else
    (s.roll s.cursor.column none .blockSequenceStart).dropKey?.map fun s =>
      { s.take 1 .blockEntry with keyAllowed := true }

/-- The question mark of a key. -/
def key? (s : Scanner) : Option Scanner :=
  if !s.inFlow && !s.keyAllowed then none
  else
    (s.roll s.cursor.column none .blockMappingStart).dropKey?.map fun s =>
      { s.take 1 .key with keyAllowed := !s.inFlow }

/-- The colon of a value. What is before it on the line is its key, if a key may have begun there. -/
def value? (s : Scanner) : Option Scanner :=
  s.expireKey?.bind fun s =>
    match s.keyPlace with
    | some k =>
      let s := (s.insertAt k.before .key).roll k.column (some k.before) .blockMappingStart
      some { s.take 1 .value with keyPlace := none, keyAllowed := false }
    | none =>
      if !s.inFlow && !s.keyAllowed then none
      else
        let s := s.roll s.cursor.column none .blockMappingStart
        some { s.take 1 .value with keyAllowed := !s.inFlow }

/-! ## Anchors, aliases and tags -/

/-- The name of an anchor or an alias, behind its sign. -/
def name? (c : Cursor) : Option (String × Cursor) :=
  let (name, c) := c.readWhile isNameChar
  if name ≠ [] && (c.endsWord 0 || c.sees 0 fun x => x ∈ ['?', ':', ',', ']', '\x7d', '%', '@', '\x60'])
  then some (String.ofList name, c) else none

/-- An anchor or an alias. -/
def named? (s : Scanner) (t : String → Token) : Option Scanner :=
  s.saveKey?.bind fun s =>
    (name? s.cursor.skip).map fun (name, c) => { s.push (t name) with cursor := c, keyAllowed := false }

/-- A tag. -/
def tag? (s : Scanner) : Option Scanner :=
  s.saveKey?.bind fun s =>
    (Tag.parts? s.cursor).bind fun (handle, suffix, c) =>
      if c.endsWord 0 || (s.inFlow && c.at_ ',') then
        some { s.push (.tag handle suffix) with cursor := c, keyAllowed := false }
      else none

/-! ## Directives and documents -/

/-- Reads the end of a directive: nothing but blanks and a comment up to the end of the line. -/
def directiveEnd? (c : Cursor) : Option Cursor :=
  let (_, c) := c.readWhile isBlank
  let c := if c.at_ '#' then c.readLine.2 else c
  if c.endsLine 0 then some c.readBreak.2 else none

/-- Reads a number of a version, of at most nine digits. -/
def versionNumber? (c : Cursor) : Option (Nat × Cursor) :=
  let (digits, c) := c.readWhile Char.isDigit
  if digits = [] || 9 < digits.length then none
  else some (digits.foldl (fun n d => 10 * n + (d.toNat - 48)) 0, c)

/-- Reads a version, which must be 1.1 or 1.2. -/
def version? (c : Cursor) : Option Cursor :=
  (versionNumber? c).bind fun (major, c) =>
    if c.at_ '.' then
      (versionNumber? c.skip).bind fun (minor, c) =>
        if major = 1 ∧ (minor = 1 ∨ minor = 2) then some c else none
    else none

/-- Reads the handle of tags, which must begin here, and the prefix that it is short for. -/
def tagPrefix? (c : Cursor) : Option (Token × Cursor) :=
  if !c.at_ '!' then none
  else
    let (handle, c) := Tag.handle c
    let (blanks, c) := c.readWhile isBlank
    if blanks = [] then none
    else
      (Tag.part? isUriChar c).bind fun (octets, c) =>
        if c.endsWord 0 then some (.tagPrefix handle octets, c) else none

/-- Reads a directive behind its sign. -/
def directive? (c : Cursor) : Option (Token × Cursor) :=
  let (name, c) := c.readWhile isNameChar
  let (blanks, c) := c.readWhile isBlank
  let t? :=
    if blanks = [] then none
    else if name = "YAML".toList then (version? c).map (Token.version, ·)
    else if name = "TAG".toList then tagPrefix? c
    else none
  t?.bind fun (t, c) => (directiveEnd? c).map (t, ·)

/-- Closes all collections; no key may begin before the next line. -/
def boundary? (s : Scanner) : Option Scanner :=
  (s.unroll (-1)).dropKey?.map fun s => { s with keyAllowed := false }

/-! ## Scanning -/

/-- Adds a text that may be a key. -/
def text? (s : Scanner) (style : Style) (read? : Cursor → Option (String × Cursor × Bool)) :
    Option Scanner :=
  s.saveKey?.bind fun s =>
    (read? s.cursor).map fun (text, c, allowed) =>
      { s.push (.scalar style text) with cursor := c, keyAllowed := allowed }

/-- Adds a block of lines. -/
def block? (s : Scanner) (style : Style) : Option Scanner :=
  s.dropKey?.bind fun s =>
    (blockText? (style = .folded) s.indent s.cursor.skip).map fun (text, c) =>
      { s.push (.scalar style text) with cursor := c, keyAllowed := true }

/-- A plain text may begin with this character. -/
def startsPlain (x : Char) : Bool :=
  !(isBlank x || isBreak x || isFlowSign x ||
    x ∈ ['-', '?', ':', '#', '&', '*', '!', '|', '>', '\'', '"', '%', '@', '\x60'])

/-- Reads the next token, of which `x` is the first character. -/
def tokenFrom? (s : Scanner) (x : Char) : Option Scanner :=
  let c := s.cursor
  if c.column = 0 && x = '%' then
    s.boundary?.bind fun s =>
      (directive? c.skip).map fun (t, c) => { s.push t with cursor := c }
  else if c.atDocumentLine Cursor.startSign then
    s.boundary?.map fun s => s.take 3 .documentStart
  else if c.atDocumentLine Cursor.endSign then
    s.boundary?.map fun s => s.take 3 .documentEnd
  else if x = '[' then s.openFlow? .flowSequenceStart
  else if x = '\x7b' then s.openFlow? .flowMappingStart
  else if x = ']' then s.closeFlow? .flowSequenceEnd
  else if x = '\x7d' then s.closeFlow? .flowMappingEnd
  else if x = ',' then s.flowEntry?
  else if x = '-' && c.endsWord 1 then s.blockEntry?
  else if x = '?' && (s.inFlow || c.endsWord 1) then s.key?
  else if x = ':' && (s.inFlow || c.endsWord 1) then s.value?
  else if x = '*' then s.named? .alias
  else if x = '&' then s.named? .anchor
  else if x = '!' then s.tag?
  else if x = '|' && !s.inFlow then s.block? .literal
  else if x = '>' && !s.inFlow then s.block? .folded
  else if x = '\'' then s.text? .quoted fun c => (quotedText? true c).map fun (t, c) => (t, c, false)
  else if x = '"' then s.text? .quoted fun c => (quotedText? false c).map fun (t, c) => (t, c, false)
  else if startsPlain x || (x = '-' && !c.sees 1 isBlank) ||
      (!s.inFlow && (x = '?' || x = ':') && !c.endsWord 1) then
    s.text? .plain (plainText? s.inFlow (s.indent + 1).toNat)
  else none

/-- Reads on up to the end of the text. -/
def run? : (fuel : Nat) → Scanner → Option Scanner
  | 0, _ => none
  | fuel + 1, s =>
    let s := s.skipBetween s.cursor.fuel
    let s := s.unroll s.cursor.column
    match s.cursor.peek 0 with
    | none => s.boundary?.map fun s => s.push .streamEnd
    | some x => (s.tokenFrom? x).bind fun s => run? fuel s

end Scanner

/-- The tokens of a text. -/
def tokens? (text : String) : Option (List Token) :=
  let cs := text.toList
  if cs.all isAllowed then
    (Scanner.run? (cs.length + 1) (.start cs)).map fun s => s.tokens.toList
  else none

end SymbolOutline.Yaml
