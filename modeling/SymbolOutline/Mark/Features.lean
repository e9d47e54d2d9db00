import SymbolOutline.Mark.Pairing
import SymbolOutline.Symbol

/-
What an editor makes of the marks of a document: outline symbols, folds, renames and
highlights.
-/

namespace SymbolOutline

/-- Lines that fold together. -/
structure Fold where
  first : Nat
  last : Nat
deriving DecidableEq, Repr

/-- A text to put in place of a stretch of a document. -/
structure TextEdit where
  range : Span
  newText : String
deriving DecidableEq, Repr

/-- The part of a mark that is highlighted. -/
inductive Part where
  | keyword | name | description
deriving DecidableEq, Repr

/-- A highlighted stretch of a document. -/
structure Highlight where
  part : Part
  range : Span
deriving DecidableEq, Repr

namespace Region

/-- The symbol of a region, in disguise. It has one if its opener has a name. -/
def symbol? (r : Region) : Option Symbol :=
  r.opener.name.map fun name =>
    .mask Symbol.regionMarker name.text (r.opener.description.map Token.text) r.range name.range

/-- A region folds from the line of its opener to that of its closer. -/
def fold (r : Region) : Fold := ⟨r.opener.range.firstLine, r.closer.range.lastLine⟩

/-- The names of a region to change when the name at a position is changed, that one first. -/
def renames? (r : Region) (p : Position) : Option (List Span) :=
  let opener := r.opener.name.map Token.range
  let closer := r.closer.name.map Token.range
  if opener.any fun s => s.Touches p then some (opener.toList ++ closer.toList)
  else if closer.any fun s => s.Touches p then some (closer.toList ++ opener.toList)
  else none

end Region

namespace Mark

/-- The symbol of a tag, in disguise. It has one if it has a name. -/
def tagSymbol? (a : Mark) : Option Symbol :=
  a.name.map fun name =>
    .mask Symbol.tagMarker name.text (a.description.map Token.text) a.range name.range

/-- The names to change when the name of a tag at a position is changed. -/
def tagRenames? (a : Mark) (p : Position) : Option (List Span) :=
  (a.name.map Token.range).bind fun s => if s.Touches p then some [s] else none

/-- The parts of a mark, highlighted. -/
def highlights (a : Mark) : List Highlight :=
  ⟨.keyword, a.keyword.range⟩ ::
    ((a.name.map fun t => Highlight.mk .name t.range).toList ++
      (a.description.map fun t => Highlight.mk .description t.range).toList)

end Mark

namespace Marks

/-- The symbols of the regions and then of the tags, in disguise and without symbols below them. -/
def symbols (s : Marks) : Forest Symbol :=
  (s.regions.filterMap Region.symbol? ++ s.tags.filterMap Mark.tagSymbol?).map fun symbol =>
    .node symbol []

/-- One fold for each region. -/
def folds (s : Marks) : List Fold := s.regions.map Region.fold

/-- The names to change when the name at a position is changed, that one first. Tags are looked
through before regions. -/
def renames? (s : Marks) (p : Position) : Option (List Span) :=
  s.tags.findSome? (·.tagRenames? p) <|> s.regions.findSome? (·.renames? p)

/-- The name at a position, if it can be changed. -/
def renameable? (s : Marks) (p : Position) : Option Span := (s.renames? p).bind List.head?

/-- The edits that change the name at a position. Both ends of a region change together. -/
def rename (s : Marks) (p : Position) (newName : String) : List TextEdit :=
  ((s.renames? p).getD []).map fun range => ⟨range, newName⟩

/-- The highlights of the regions, each opener before its closer, and then of the tags. -/
def highlights (s : Marks) : List Highlight :=
  ((s.regions.flatMap fun r => [r.opener, r.closer]) ++ s.tags).flatMap Mark.highlights

end Marks

end SymbolOutline
