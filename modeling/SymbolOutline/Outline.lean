import SymbolOutline.Diagnostic
import SymbolOutline.Expansion
import SymbolOutline.Forest
import SymbolOutline.Span

/-
The outline: a forest of items. An item is what is shown of a symbol, with its display state and
the path that leads to it. `Outline.ofForest` is the one way to build an outline from items; it
writes every path anew.
-/

namespace SymbolOutline

/-- An entry of the outline, without the entries below it. -/
structure Item where
  key : Key
  detail : String
  range : Span
  selection : Span
  expanded : Bool
  inView : Bool
  focused : Bool
  tally : Tally
  path : Path
deriving DecidableEq, Repr

namespace Item

instance : Keyed Item := ⟨Item.key⟩

/-- An item on which nothing has happened yet. -/
def fresh (key : Key) (detail : String) (range selection : Span) : Item where
  key := key
  detail := detail
  range := range
  selection := selection
  expanded := false
  inView := false
  focused := false
  tally := .zero
  path := []

/-- An item neither expanded nor in view nor focused. -/
def unlit (i : Item) : Item := { i with expanded := false, inView := false, focused := false }

end Item

/-- The entries of a document, as a forest. -/
abbrev Outline := Forest Item

namespace Outline

mutual
/-- Writes the paths of an entry and of the entries below it. -/
def locate (base : Path) : Rose Item → Rose Item
  | .node i ts =>
    .node { i with path := base ++ [i.key] } (locateAll (base ++ [i.key]) ts)
/-- Writes the paths of all entries of a forest that a path leads into. -/
def locateAll (base : Path) : Forest Item → Forest Item
  | [] => []
  | t :: ts => locate base t :: locateAll base ts
end

/-- The outline of given entries: their order and state stay, their paths are written anew. -/
def ofForest (ts : Forest Item) : Outline := locateAll [] ts

/-- The items of an outline, each before the items below it. -/
def items (o : Outline) : List Item := Rose.valuesAll o

/-- Changes the item at a path. -/
def modifyItem (f : Item → Item) (p : Path) (o : Outline) : Outline :=
  Forest.modify (Rose.setValue f) p o

/-- The item at a path. -/
def item? (o : Outline) (p : Path) : Option Item := (Forest.find? o p).map Rose.value

/-- Expands or collapses the item at a path. -/
def setExpanded (expanded : Bool) (p : Path) (o : Outline) : Outline :=
  modifyItem (fun i => { i with expanded }) p o

/-- Which items are expanded, by path. -/
def expansion (o : Outline) : Expansion :=
  Expansion.ofEntries (o.items.map fun i => (i.path, i.expanded))

/-- Expands and collapses items as recorded, one entry after the other. Paths that lead nowhere are
passed over. -/
def lendExpansion (entries : List (Path × Bool)) (o : Outline) : Outline :=
  entries.foldl (fun o e => setExpanded e.2 e.1 o) o

/-- The outline with every item collapsed, out of view and out of focus. -/
def unlit (o : Outline) : Outline := Rose.mapAll Item.unlit o

end Outline

end SymbolOutline
