import SymbolOutline.Json.Basic
import SymbolOutline.Message

/-
The wire form of messages, as JSON: what a display in another program gets to see. Keys are sent as
their texts, and a value as itself, its sort being known from the property.
-/

namespace SymbolOutline

/-- The wire form of a position. -/
def Position.wire (p : Position) : Json := .obj [("line", .nat p.line), ("column", .nat p.column)]

/-- The wire form of a span. -/
def Span.wire (s : Span) : Json := .obj [("start", s.start.wire), ("end", s.stop.wire)]

/-- The wire form of a key. -/
def Key.wire (k : Key) : Json := .str k.text

/-- The wire form of a path. -/
def Path.wire (p : Path) : Json := .list Key.wire p

/-- The wire form of a tally. -/
def Tally.wire (t : Tally) : Json :=
  .obj [("errors", .nat t.errors.toNat), ("warnings", .nat t.warnings.toNat),
    ("errorInDescendant", .bool t.errorBelow), ("warningInDescendant", .bool t.warningBelow)]

/-- The wire form of an item, with that of the items below it. -/
def Item.wire (i : Item) (children : List Json) : Json :=
  .obj [("kind", .str i.key.kind.text), ("name", .str i.key.name), ("detail", .str i.detail),
    ("range", i.range.wire), ("selectionRange", i.selection.wire), ("expand", .bool i.expanded),
    ("inView", .bool i.inView), ("focus", .bool i.focused), ("diagnostics", i.tally.wire),
    ("children", .arr children), ("path", Path.wire i.path)]

namespace Outline

mutual
/-- The wire form of an entry. -/
def wireOf : Rose Item → Json
  | .node i ts => i.wire (wireAll ts)
/-- The wire forms of the entries of a forest. -/
def wireAll : Forest Item → List Json
  | [] => []
  | t :: ts => wireOf t :: wireAll ts
end

end Outline

/-- The wire form of a value. -/
def PropertyValue.wire : PropertyValue → Json
  | flag b => .bool b
  | text s => .str s
  | span s => s.wire
  | severity s => .option (fun s => .str s.name) s
  | count n => .int n

/-- The wire form of a change. -/
def Change.wire : Change → Json
  | update path property value =>
    .obj [("type", .str "update"), ("selector", Path.wire path), ("property", .str property.name),
      ("value", value.wire)]
  | insert path before entries =>
    .obj [("type", .str "insert"), ("selector", Path.wire path), ("before", .option Key.wire before),
      ("nodes", .arr (Outline.wireAll entries))]
  | delete path keys =>
    .obj [("type", .str "delete"), ("selector", Path.wire path), ("nodes", .list Key.wire keys)]
  | move path keys before =>
    .obj [("type", .str "move"), ("selector", Path.wire path), ("nodes", .list Key.wire keys),
      ("before", .option Key.wire before)]

/-- The wire form of a message. -/
def Message.wire (m : Message) : Json :=
  .obj (("type", .str m.sort) ::
    match m with
    | update changes => [("patches", .list Change.wire changes)]
    | rebuild entries => [("nodes", .arr (Outline.wireAll entries))]
    | clear reason description =>
      [("reason", .str reason.name), ("description", .str description)]
    | scroll target => [("follow", .str target.name)]
    | config depth => [("depth", .option .nat depth)]
    | changeDepth delta => [("delta", .int delta)])

end SymbolOutline
