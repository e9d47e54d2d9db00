import SymbolOutline.Change

/-
What a session tells a display. The messages of a session, carried out in order, are all that a
display needs.
-/

namespace SymbolOutline

/-- Why there is no outline to show. -/
inductive Absence where
  | noActiveEditor | noSymbols | unsupported
deriving DecidableEq, Repr

namespace Absence

/-- The name a reason goes by on the wire. -/
def name : Absence → String
  | .noActiveEditor => "noActiveEditor"
  | .noSymbols => "noSymbols"
  | .unsupported => "unsupported"

end Absence

/-- What a display should scroll to. -/
inductive ScrollTarget where
  | focused | inView
deriving DecidableEq, Repr

namespace ScrollTarget

/-- The name a target goes by on the wire. -/
def name : ScrollTarget → String
  | .focused => "focus"
  | .inView => "inView"

end ScrollTarget

/-- One message to a display. -/
inductive Message where
  /-- Carry out these changes in order. -/
  | update (changes : List Change)
  /-- Show these entries instead of all that was shown. -/
  | rebuild (entries : Forest Item)
  /-- Show no entries, but say why. -/
  | clear (reason : Absence) (description : String)
  /-- Scroll to an entry. -/
  | scroll (target : ScrollTarget)
  /-- Expand no deeper than this, or without limit. -/
  | config (depth : Option Nat)
  /-- Show more levels, or fewer. -/
  | changeDepth (delta : Int)
deriving DecidableEq

namespace Message

/-- The name of the sort of message. -/
def sort : Message → String
  | update _ => "update"
  | rebuild _ => "rebuild"
  | clear .. => "clear"
  | scroll _ => "scroll"
  | config _ => "config"
  | changeDepth _ => "changeDepth"

end Message

end SymbolOutline
