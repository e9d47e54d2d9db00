import SymbolOutline.Message

/-
A display of an outline: the rows that a user sees, kept up to date by messages alone. A change
about an entry that is not there does nothing, and so does an update whose value is not of the
property's type.
-/

namespace SymbolOutline

/-- What is displayed of an item. -/
structure Row where
  key : Key
  detail : String
  range : Span
  selection : Span
  expanded : Bool
  inView : Bool
  focused : Bool
  severity : Option Severity
  count : Int
deriving DecidableEq, Repr

namespace Row

instance : Keyed Row := ⟨Row.key⟩

/-- Gives a row a new value for a property, if the value is of the property's type. -/
def set (r : Row) : Property → PropertyValue → Row
  | .detail, .text detail => { r with detail }
  | .range, .span range => { r with range }
  | .selection, .span selection => { r with selection }
  | .expanded, .flag expanded => { r with expanded }
  | .inView, .flag inView => { r with inView }
  | .focused, .flag focused => { r with focused }
  | .severity, .severity severity => { r with severity }
  | .count, .count count => { r with count }
  | _, _ => r

end Row

/-- What is displayed of an item. -/
def Item.row (i : Item) : Row where
  key := i.key
  detail := i.detail
  range := i.range
  selection := i.selection
  expanded := i.expanded
  inView := i.inView
  focused := i.focused
  severity := i.tally.badge.severity
  count := i.tally.badge.count

/-- The rows that display the entries of a forest. -/
def rows (ts : Forest Item) : Forest Row := Rose.mapAll Item.row ts

/-- The state of a display. -/
structure View where
  roots : Forest Row
  /-- How many levels may be expanded; `none` for all. -/
  maxDepth : Option Nat
  /-- What is shown in place of entries. -/
  placeholder : Option (Absence × String)
deriving DecidableEq

namespace View

/-- A display of nothing. -/
def empty (maxDepth : Option Nat) : View := ⟨[], maxDepth, none⟩

/-- A display of given entries. -/
def ofForest (ts : Forest Item) : View := ⟨rows ts, none, none⟩

/-- The number of levels there are. -/
def depth (v : View) : Nat := Rose.depthAll v.roots

/-- The paths of all rows, each before those below it. -/
def paths (v : View) : List Path := Forest.paths v.roots

/-- The row at a path, with the rows below it. -/
def find? (v : View) (p : Path) : Option (Rose Row) := Forest.find? v.roots p

/-- The row at a path is expanded, and not so deep that the limit forbids it. -/
def isExpanded (v : View) (p : Path) : Bool :=
  match v.find? p with
  | none => false
  | some t => t.value.expanded && v.maxDepth.all fun limit => p.length - 1 < limit

/-- The greatest depth limit: the greatest 64-bit word. -/
def deepest : Nat := Nat.pow 2 64 - 1

/-- Shifts the depth limit, not below one level. Without a limit it starts from the levels there
are. -/
def changeDepth (v : View) (delta : Int) : View :=
  let current := v.maxDepth.getD v.depth
  let next := if delta < 0 then current - delta.natAbs else min (current + delta.natAbs) deepest
  { v with maxDepth := some (max next 1) }

/-- Carries out one change on rows. -/
def applyTo (roots : Forest Row) : Change → Forest Row
  | .update path property value =>
    Forest.modify (Rose.setValue fun r => r.set property value) path roots
  | .insert path before entries =>
    Forest.modifyContainer (Forest.insertBefore before (rows entries)) path roots
  | .delete path keys =>
    Forest.modifyContainer (fun ts => keys.foldl (fun ts k => Forest.removeChild k ts) ts) path roots
  | .move path keys before =>
    Forest.modifyContainer
      (fun ts =>
        let (taken, left) := Forest.takeOut keys ts
        Forest.insertBefore before taken left)
      path roots

/-- Carries out one change. -/
def apply (v : View) (c : Change) : View := { v with roots := applyTo v.roots c }

/-- Carries out changes in order. If there are any, a placeholder goes. -/
def applyAll (v : View) (cs : List Change) : View where
  roots := cs.foldl applyTo v.roots
  maxDepth := v.maxDepth
  placeholder := if cs = [] then v.placeholder else none

/-- Does what a message says. -/
def handle (v : View) : Message → View
  | .update changes => v.applyAll changes
  | .rebuild entries => { v with roots := rows entries, placeholder := none }
  | .clear reason description => { v with roots := [], placeholder := some (reason, description) }
  | .scroll _ => v
  | .config depth => { v with maxDepth := depth }
  | .changeDepth delta => v.changeDepth delta

end View

end SymbolOutline
