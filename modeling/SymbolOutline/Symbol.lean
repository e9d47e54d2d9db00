import SymbolOutline.Forest
import SymbolOutline.Span

/-
Symbols as a provider reports them: forests in any order, which may nest by ranges rather than by
structure. Marking comments enter the outline by the same door. They travel as symbols of kind
`number` whose detail begins with a marker, and `Symbol.unmask` gives them their own kinds back.
-/

namespace SymbolOutline

/-- A symbol as reported, without the symbols below it. -/
structure Symbol where
  key : Key
  detail : Option String
  range : Span
  selection : Span
deriving DecidableEq, Repr

namespace Symbol

instance : Keyed Symbol := ⟨Symbol.key⟩

/-- The marker that begins the detail of a region in disguise. -/
def regionMarker : String := "__outline_region__"

/-- The marker that begins the detail of a tag in disguise. -/
def tagMarker : String := "__outline_tag__"

/-- What follows a marker at the start of a text. -/
def after? (marker text : String) : Option String :=
  if marker.toList.isPrefixOf text.toList then
    some (String.ofList (text.toList.drop marker.length))
  else none

/-- The kind and the detail that a symbol stands for: a number with a marked detail is a region or
a tag, and the marker is taken off once. A missing detail is empty. -/
def unmask (s : Symbol) : Kind × String :=
  let detail := s.detail.getD ""
  if s.key.kind = .number then
    match after? regionMarker detail with
    | some rest => (.region, rest)
    | none =>
      match after? tagMarker detail with
      | some rest => (.tag, rest)
      | none => (.number, detail)
  else (s.key.kind, detail)

/-- A symbol in disguise: a number whose detail is the marker and a description. -/
def mask (marker name : String) (description : Option String) (range selection : Span) : Symbol where
  key := ⟨.number, name⟩
  detail := some (marker ++ description.getD "")
  range := range
  selection := selection

end Symbol

end SymbolOutline
