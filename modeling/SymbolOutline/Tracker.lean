import SymbolOutline.Change
import SymbolOutline.Outline.Query
import SymbolOutline.PathSet

/-
Following the editor. A tracker remembers which entries it has put in focus, in view, or expanded
because they were in view. When the cursor or the visible lines change it works out the new sets,
switches off what has left them and switches on what has come, and reports each switch that was not
yet in its place.
-/

namespace SymbolOutline

/-- How far the outline follows the editor. -/
inductive Pin where
  /-- Focus, view and expansion all follow. -/
  | unpinned
  /-- Focus and view follow, but nothing is expanded or collapsed. -/
  | pinned
  /-- Nothing follows. -/
  | frozen
deriving DecidableEq, Repr

namespace Pin

/-- The name of a pin state. -/
def name : Pin → String
  | .unpinned => "unpinned"
  | .pinned => "pinned"
  | .frozen => "frozen"

end Pin

/-- What the editor has made of the outline. -/
structure Tracker where
  focused : PathSet
  inView : PathSet
  expanded : PathSet
  /-- The lines of the cursors, as they last were. -/
  cursors : List Outline.Lines
  pin : Pin
deriving DecidableEq

namespace Outline

/-- The values of one property of an item that is on or off. -/
structure Switch where
  property : Property
  get : Item → Bool
  set : Bool → Item → Item

namespace Switch

/-- The item is in focus. -/
def focused : Switch := ⟨.focused, Item.focused, fun focused i => { i with focused }⟩

/-- The item is in view. -/
def inView : Switch := ⟨.inView, Item.inView, fun inView i => { i with inView }⟩

/-- The item is expanded. -/
def expanded : Switch := ⟨.expanded, Item.expanded, fun expanded i => { i with expanded }⟩

end Switch

/-- Turns a switch of the item at a path on or off. A switch that is not yet in its place is
reported. -/
def turn (s : Switch) (on : Bool) (p : Path) (o : Outline) : Outline × List Change :=
  match o.item? p with
  | none => (o, [])
  | some i =>
    if s.get i = on then (o, [])
    else (modifyItem (s.set on) p o, [.update p s.property (.flag on)])

/-- Turns a switch at every path of a list. -/
def turnAll (s : Switch) (on : Bool) : List Path → Outline → Outline × List Change
  | [], o => (o, [])
  | p :: ps, o =>
    let (o, now) := turn s on p o
    let (o, later) := turnAll s on ps o
    (o, now ++ later)

/-- Turns a switch off where it leaves a set and on where it enters one. -/
def shift (s : Switch) (before after : PathSet) (o : Outline) : Outline × List Change :=
  let (o, leaving) := turnAll s false (before.diff after).toList o
  let (o, entering) := turnAll s true (after.diff before).toList o
  (o, leaving ++ entering)

/-- The items that a cursor on some lines puts in focus: those in range, else the nearest one. -/
def underCursor (o : Outline) (q : Lines) : List Item :=
  let found := o.search q
  if found.inRange = [] then found.closest.toList else found.inRange

end Outline

namespace Tracker

/-- Nothing is in focus, in view or expanded. -/
def new : Tracker := ⟨∅, ∅, ∅, [], .unpinned⟩

/-- Forgets all entries, since there is another outline. -/
def reset (t : Tracker) : Tracker := { new with pin := t.pin }

/-- Changes how far the outline follows the editor. -/
def setPin (t : Tracker) (pin : Pin) : Tracker := { t with pin }

/-- The cursors are elsewhere. Nothing happens if their lines are the same as before. -/
def focus (t : Tracker) (o : Outline) (cursors : List Span) : Tracker × Outline × List Change :=
  let lines := cursors.map Outline.linesOf
  if t.pin = .frozen ∨ lines = t.cursors then (t, o, [])
  else
    let focused := PathSet.ofList ((lines.flatMap o.underCursor).map Item.path)
    let (o, changes) := Outline.shift .focused t.focused focused o
    ({ t with focused, cursors := lines }, o, changes)

/-- Other lines are visible. -/
def view (t : Tracker) (o : Outline) (visible : Span) : Tracker × Outline × List Change :=
  if t.pin = .frozen then (t, o, [])
  else
    let found := o.search (Outline.linesOf visible)
    let inView := PathSet.ofList (found.inRange.map Item.path)
    let (o, seen) := Outline.shift .inView t.inView inView o
    if t.pin = .unpinned then
      let expanded := inView.insertAll (found.overlapping.map Item.path)
      let (o, opened) := Outline.shift .expanded t.expanded expanded o
      ({ t with inView, expanded }, o, seen ++ opened)
    else ({ t with inView }, o, seen)

end Tracker

end SymbolOutline
