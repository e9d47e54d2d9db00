import SymbolOutline.Yaml.Token

/-
The document of a YAML text: texts, sequences and mappings, the latter as they are written, with
repeated keys and in order. An anchor puts a part of the document into a slot, and an alias stands
for what is in a slot.
-/

namespace SymbolOutline.Yaml

/-- A part of a document. Texts keep how they are written and what they are tagged with. -/
inductive Node where
  | scalar (style : Style) (tag : Option Tag) (text : String)
  | sequence (members : List Node)
  | mapping (entries : List (Node × Node))
  /-- The part of the document in a slot. -/
  | alias (slot : Nat)

namespace Node

/-- Where nothing is written, there is an empty plain text. -/
def empty : Node := scalar .plain none ""

end Node

/-- A document. -/
structure Document where
  root : Node
  /-- The parts of the document in slots. Those that begin last come first. -/
  slots : List (Nat × Node)

namespace Document

/-- What a part of the document is if aliases are what they stand for. Of more than one part in a slot,
the one that begins last counts. -/
def target (d : Document) : Node → Node
  | .alias slot => ((d.slots.find? fun s => s.1 = slot).map Prod.snd).getD .empty
  | n => n

end Document

/-- The state of a reading: the tokens left, the slots of the names so far, the parts of the document
in slots, and the prefixes of tags. -/
structure Reading where
  tokens : List Token
  names : List (String × Nat)
  slots : List (Nat × Node)
  prefixes : List (String × Tag)

namespace Reading

/-- The next token. -/
def next (r : Reading) : Option Token := r.tokens.head?

/-- The next token is one of these. -/
def sees (r : Reading) (ts : List Token) : Bool := r.next.any fun t => t ∈ ts

/-- Reads a token. -/
def skip (r : Reading) : Reading := { r with tokens := r.tokens.drop 1 }

/-- Puts an anchor on a part of the document that is about to be read. Its slot is how many names there
are; so if a name comes again, its slot is the one of the next new name. -/
def announce (r : Reading) (name : String) : Reading :=
  let slot := r.names.length
  { r with
    names := (name, slot) :: r.names.filter fun n => n.1 ≠ name
    slots := (slot, .empty) :: r.slots }

/-- Says what the part of the document is that was announced when there were `count` others. Those
announced since then come first. -/
def settle (r : Reading) (count : Nat) (n : Node) : Reading :=
  { r with slots := r.slots.modify (r.slots.length - 1 - count) fun s => (s.1, n) }

/-- What a tag is short for. -/
def expand? (r : Reading) (handle : String) (suffix : Tag) : Option Tag :=
  if handle = "" then some suffix
  else (r.prefixes.find? fun p => p.1 = handle).map fun p => p.2 ++ suffix

/-- Reads the anchor and the tag in front of a part of the document, in either order. -/
def properties? (r : Reading) : Option (Option String × Option Tag × Reading) :=
  match r.next with
  | some (.anchor name) =>
    match r.skip.next with
    | some (.tag handle suffix) =>
      (r.expand? handle suffix).map fun tag => (some name, some tag, r.skip.skip)
    | _ => some (some name, none, r.skip)
  | some (.tag handle suffix) =>
    (r.expand? handle suffix).map fun tag =>
      match r.skip.next with
      | some (.anchor name) => (some name, some tag, r.skip.skip)
      | _ => (none, some tag, r.skip)
  | _ => some (none, none, r)

/-- The surroundings of a part of a document. -/
inductive Place where
  /-- Within brackets. -/
  | flow
  /-- Among lines. -/
  | block
  /-- Among lines, as a key or a value, where a sequence need not be indented. -/
  | field
deriving DecidableEq

mutual
/-- Reads a part of the document. On a text that is written out, the plain tag counts as none. -/
def node? (place : Place) : (fuel : Nat) → Reading → Option (Node × Reading)
  | 0, _ => none
  | fuel + 1, r =>
    match r.next with
    | some (.alias name) =>
      (r.names.find? fun n => n.1 = name).map fun n => (Node.alias n.2, r.skip)
    | _ =>
      r.properties?.bind fun (anchor, tag, r) =>
        let count := r.slots.length
        let r := match anchor with
          | some name => r.announce name
          | none => r
        let body : Option (Node × Reading) :=
          match place, r.next with
          | .field, some .blockEntry =>
            (indentless? fuel r).map fun (ns, r) => (Node.sequence ns, r)
          | _, some (.scalar style text) =>
            some (Node.scalar style (tag.filter (· ≠ Tag.plain)) text, r.skip)
          | _, some .flowSequenceStart =>
            (flowMembers? true fuel r.skip).map fun (ns, r) => (Node.sequence ns, r)
          | _, some .flowMappingStart =>
            (flowEntries? true fuel r.skip).map fun (es, r) => (Node.mapping es, r)
          | .block, some .blockSequenceStart | .field, some .blockSequenceStart =>
            (blockMembers? fuel r.skip).map fun (ns, r) => (Node.sequence ns, r)
          | .block, some .blockMappingStart | .field, some .blockMappingStart =>
            (blockEntries? fuel r.skip).map fun (es, r) => (Node.mapping es, r)
          | _, _ =>
            if anchor.isSome || tag.isSome then some (Node.scalar .plain tag "", r) else none
        body.map fun (n, r) => match anchor with
          | some _ => (n, r.settle count n)
          | none => (n, r)
/-- Reads the members of a sequence that is not indented. -/
def indentless? : (fuel : Nat) → Reading → Option (List Node × Reading)
  | 0, _ => none
  | fuel + 1, r =>
    if r.sees [.blockEntry] then
      (nodeUnless? .block [.blockEntry, .key, .value, .blockEnd] fuel r.skip).bind fun (n, r) =>
        (indentless? fuel r).map fun (ns, r) => (n :: ns, r)
    else some ([], r)
/-- Reads the members of a sequence and its end. -/
def blockMembers? : (fuel : Nat) → Reading → Option (List Node × Reading)
  | 0, _ => none
  | fuel + 1, r =>
    if r.sees [.blockEntry] then
      (nodeUnless? .block [.blockEntry, .blockEnd] fuel r.skip).bind fun (n, r) =>
        (blockMembers? fuel r).map fun (ns, r) => (n :: ns, r)
    else if r.sees [.blockEnd] then some ([], r.skip)
    else none
/-- Reads the entries of a mapping and its end. -/
def blockEntries? : (fuel : Nat) → Reading → Option (List (Node × Node) × Reading)
  | 0, _ => none
  | fuel + 1, r =>
    if r.sees [.key] then
      (nodeUnless? .field [.key, .value, .blockEnd] fuel r.skip).bind fun (k, r) =>
        (valueUnless? .field [.key, .value, .blockEnd] fuel r).bind fun (v, r) =>
          (blockEntries? fuel r).map fun (es, r) => ((k, v) :: es, r)
    else if r.sees [.blockEnd] then some ([], r.skip)
    else none
/-- Reads the members of a sequence in brackets and its end. A member may be a mapping of one entry. If
nothing is its key, what follows the sign of the key is left out. -/
def flowMembers? (first : Bool) : (fuel : Nat) → Reading → Option (List Node × Reading)
  | 0, _ => none
  | fuel + 1, r =>
    if r.sees [.flowSequenceEnd] then some ([], r.skip)
    else
      let r' := if first then some r else if r.sees [.flowEntry] then some r.skip else none
      r'.bind fun r =>
        if r.sees [.flowSequenceEnd] then some ([], r.skip)
        else
          let member :=
            if r.sees [.key] then
              let r := r.skip
              let key :=
                if r.sees [.value, .flowEntry, .flowSequenceEnd] then some (Node.empty, r.skip)
                else node? .flow fuel r
              key.bind fun (k, r) =>
                (valueUnless? .flow [.flowEntry, .flowSequenceEnd] fuel r).map fun (v, r) =>
                  (Node.mapping [(k, v)], r)
            else node? .flow fuel r
          member.bind fun (n, r) =>
            (flowMembers? false fuel r).map fun (ns, r) => (n :: ns, r)
/-- Reads the entries of a mapping in brackets and its end. -/
def flowEntries? (first : Bool) : (fuel : Nat) → Reading → Option (List (Node × Node) × Reading)
  | 0, _ => none
  | fuel + 1, r =>
    if r.sees [.flowMappingEnd] then some ([], r.skip)
    else
      let r' := if first then some r else if r.sees [.flowEntry] then some r.skip else none
      r'.bind fun r =>
        if r.sees [.flowMappingEnd] then some ([], r.skip)
        else
          let entry :=
            if r.sees [.key] then
              (nodeUnless? .flow [.value, .flowEntry, .flowMappingEnd] fuel r.skip).bind
                fun (k, r) =>
                  (valueUnless? .flow [.flowEntry, .flowMappingEnd] fuel r).map fun (v, r) =>
                    ((k, v), r)
            else (node? .flow fuel r).map fun (k, r) => ((k, Node.empty), r)
          entry.bind fun (e, r) =>
            (flowEntries? false fuel r).map fun (es, r) => (e :: es, r)
/-- Reads the value of an entry: nothing if there is no colon, or if one of `stops` follows it. -/
def valueUnless? (place : Place) (stops : List Token) : (fuel : Nat) → Reading →
    Option (Node × Reading)
  | 0, _ => none
  | fuel + 1, r =>
    if r.sees [.value] then nodeUnless? place stops fuel r.skip else some (.empty, r)
/-- Reads a part of the document: nothing if one of `stops` is next. -/
def nodeUnless? (place : Place) (stops : List Token) : (fuel : Nat) → Reading →
    Option (Node × Reading)
  | 0, _ => none
  | fuel + 1, r => if r.sees stops then some (.empty, r) else node? place fuel r
end

/-! ## Documents -/

/-- Reads the directives in front of a document and the sign that it starts. Neither the version nor the
prefix of one handle may be given twice. -/
def directives? : (versioned : Bool) → (handles : List String) → List Token → Reading →
    Option Reading
  | versioned, handles, t :: ts, r =>
    match t with
    | .version => if versioned then none else directives? true handles ts r
    | .tagPrefix handle uri =>
      if handle ∈ handles then none
      else
        directives? versioned (handle :: handles) ts
          { r with prefixes := (handle, uri) :: r.prefixes }
    | .documentStart => some { r with tokens := ts }
    | _ => none
  | _, _, [], _ => none

/-- A document without directives and a sign that it starts is next. -/
def isBare (r : Reading) : Bool :=
  r.next.any fun
    | .version | .tagPrefix .. | .documentStart => false
    | _ => true

/-- Nothing follows up to the end of the document. -/
def atDocumentEnd (r : Reading) : Bool :=
  r.next.any fun
    | .version | .tagPrefix .. | .documentStart | .documentEnd | .streamEnd => true
    | _ => false

/-- Reads a document. -/
def document? (fuel : Nat) (r : Reading) : Option (Node × Reading) :=
  if r.isBare then node? .block fuel r
  else
    (directives? false [] r.tokens r).bind fun r =>
      if r.atDocumentEnd then some (.empty, r) else node? .block fuel r

/-- There is nothing left but signs that the document ends. -/
def isDone (r : Reading) : Bool := r.tokens.dropWhile (· = .documentEnd) = [.streamEnd]

/-- The start of a reading. -/
def start (tokens : List Token) : Reading where
  tokens := tokens
  names := []
  slots := []
  prefixes := [("!", .plain), ("!!", .common)]

end Reading

namespace Document

/-- The document that tokens make. There must be one at most; where there is none, nothing is written.
From one token read to the next there are never more than four steps. -/
def ofTokens? (tokens : List Token) : Option Document :=
  if tokens = [.streamEnd] then some ⟨.empty, []⟩
  else
    (Reading.document? (4 * tokens.length + 8) (.start tokens)).bind fun (n, r) =>
      if r.isDone then some ⟨n, r.slots⟩ else none

/-- The document of a text. -/
def ofText? (text : String) : Option Document := (tokens? text).bind ofTokens?

end Document

end SymbolOutline.Yaml
