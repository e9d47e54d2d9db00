/-
Texts as numbered lines. `TextLines` is what a reader of lines needs to know of a text, however the
text is held: how many lines it has, what each of them says, and how to walk over all of them. A
plain string breaks into lines at line feeds.
-/

namespace SymbolOutline

/-- A text, line by line. Lines are numbered from zero and come without their ends. -/
structure TextLines where
  count : Nat
  line? : Nat → Option String
  /-- The lines that a walk over the text visits, with their numbers. -/
  visits : List (Nat × String)

namespace Text

/-- The line without the `c` at its end, if there is one. -/
def dropEnd (c : Char) (line : List Char) : List Char :=
  if line.getLast? = some c then line.dropLast else line

/-- What a line says in front of the `c` that it ends in. -/
def stripEnd? (c : Char) : List Char → Option (List Char)
  | [] => none
  | [d] => if d = c then some [] else none
  | d :: e :: line => (stripEnd? c (e :: line)).map (d :: ·)

/-- What stands between the line feeds of a text. -/
def splitFeeds : List Char → List (List Char)
  | [] => [[]]
  | c :: cs =>
    if c = '\n' then [] :: splitFeeds cs
    else
      match splitFeeds cs with
      | [] => [[c]]
      | line :: lines => (c :: line) :: lines

/-- Numbers the members of a list from zero. -/
def numbered {α : Type} (xs : List α) : List (Nat × α) := xs.zipIdx.map fun p => (p.2, p.1)

end Text

namespace TextLines

/-- The walk that asks for every line by its number and visits those there are. -/
def walk (count : Nat) (line? : Nat → Option String) : List (Nat × String) :=
  (List.range count).filterMap fun n => (line? n).map (n, ·)

/-- A text given line by line, some of which may be missing. -/
def ofEntries (entries : List (Option String)) : TextLines :=
  let line? := fun n => (entries[n]?).join
  ⟨entries.length, line?, walk entries.length line?⟩

/-- The lines of a string. -/
def ofString (s : String) : TextLines where
  count := (Text.splitFeeds s.toList).length
  line? n := (Text.splitFeeds s.toList)[n]?.map fun line =>
    String.ofList ((Text.stripEnd? '\r' line).getD line)
  visits := (Text.numbered (Text.splitFeeds s.toList)).map fun v =>
    (v.1, String.ofList ((Text.stripEnd? '\r' v.2).getD v.2))

end TextLines

end SymbolOutline
