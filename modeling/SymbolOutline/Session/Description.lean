import SymbolOutline.Session
import SymbolOutline.Text.Quoted

/-
A session in one line, for developers.
-/

namespace SymbolOutline

/-- A pin state as it is written in descriptions. -/
def Pin.description : Pin → String
  | .unpinned => "Unpinned"
  | .pinned => "Pinned"
  | .frozen => "Frozen"

/-- A document as it is written in descriptions. -/
def Document.description (d : Document) : String :=
  "DocumentId \x7b uri: " ++ Text.quoted d.uri ++ " \x7d"

/-- The number of entries of the outline. -/
def Session.size (s : Session) : Nat := (s.outline.map Rose.sizeAll).getD 0

/-- A session in one line. -/
def Session.description (s : Session) : String :=
  let document := match s.document with
    | none => "None"
    | some d => "Some(" ++ d.description ++ ")"
  "OutlineSession \x7b document: " ++ document ++ ", generation: " ++ toString s.generation ++
    ", nodes: " ++ toString s.size ++ ", pin: " ++ s.tracker.pin.description ++ ", .. \x7d"

end SymbolOutline
