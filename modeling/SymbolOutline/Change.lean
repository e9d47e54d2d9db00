import SymbolOutline.Outline

/-
Changes to a displayed outline: the instructions that bring a display from one outline to the next.
An update names the entry it is about; every other change names the place that holds the entries it
is about, and those entries by key. Changes are meant to be carried out in order.
-/

namespace SymbolOutline

/-- A property of a displayed entry. -/
inductive Property where
  | detail | range | selection | expanded | inView | focused | severity | count
deriving DecidableEq, Repr

namespace Property

/-- The name a property goes by on the wire. -/
def name : Property → String
  | .detail => "detail"
  | .range => "range"
  | .selection => "selectionRange"
  | .expanded => "expand"
  | .inView => "inView"
  | .focused => "focus"
  | .severity => "diagnosticType"
  | .count => "diagnosticCount"

end Property

/-- A value for a property. -/
inductive PropertyValue where
  | flag (value : Bool)
  | text (value : String)
  | span (value : Span)
  | severity (value : Option Severity)
  | count (value : Int)
deriving DecidableEq, Repr

/-- The value is of the property's type. -/
def Property.Takes : Property → PropertyValue → Prop
  | .detail, .text _ => True
  | .range, .span _ => True
  | .selection, .span _ => True
  | .expanded, .flag _ => True
  | .inView, .flag _ => True
  | .focused, .flag _ => True
  | .severity, .severity _ => True
  | .count, .count _ => True
  | _, _ => False

/-- One change to a displayed outline. -/
inductive Change where
  /-- The entry at `path` gets a new value for one property. -/
  | update (path : Path) (property : Property) (value : PropertyValue)
  /-- New entries appear in front of a sibling, or behind all of them. -/
  | insert (path : Path) (before : Option Key) (entries : Forest Item)
  /-- Entries go, with all that is below them. -/
  | delete (path : Path) (keys : List Key)
  /-- Entries go in front of a sibling, or behind all of them. -/
  | move (path : Path) (keys : List Key) (before : Option Key)
deriving DecidableEq

namespace Change

/-- The path a change names. -/
def path : Change → Path
  | update p _ _ => p
  | insert p _ _ => p
  | delete p _ => p
  | move p _ _ => p

/-- The change alters which entries there are or how they are arranged. -/
def isStructural : Change → Bool
  | update .. => false
  | _ => true

end Change

end SymbolOutline
