import SymbolOutline.Span

/-
Marks: comments that mark a place in a document. In a line such as

    // #region name a description

the keyword says whether the mark opens a region, closes one or sets a tag. A name and a description
may follow.
-/

namespace SymbolOutline

/-- What a mark does. -/
inductive Marker where
  | opener | closer | tag
deriving DecidableEq, Repr

/-- The keywords of the three markers. An empty keyword marks nothing. -/
structure Keywords where
  opener : String
  closer : String
  tag : String
deriving DecidableEq, Repr

namespace Keywords

/-- The keywords in use where none are chosen. -/
def standard : Keywords := ⟨"#region", "#endregion", "#tag"⟩

/-- The keywords that mark something, with what they mark. -/
def entries (ks : Keywords) : List (Marker × String) :=
  [(.opener, ks.opener), (.closer, ks.closer), (.tag, ks.tag)].filter fun e => e.2 ≠ ""

end Keywords

/-- A part of a mark: its text, free of escapes, and where it stands. -/
structure Token where
  text : String
  range : Span
deriving DecidableEq, Repr

/-- The mark of a line. -/
structure Mark where
  marker : Marker
  keyword : Token
  name : Option Token
  description : Option Token
  range : Span
deriving DecidableEq, Repr

namespace Mark

/-- The text of the name. -/
def nameText? (a : Mark) : Option String := a.name.map Token.text

/-- The parts of a mark put together; its range reaches from the start of the keyword to the
end of the last part. -/
def ofParts (marker : Marker) (keyword : Token) (name description : Option Token) : Mark where
  marker := marker
  keyword := keyword
  name := name
  description := description
  range := .between keyword.range.start ((description <|> name).getD keyword).range.stop

end Mark

end SymbolOutline
