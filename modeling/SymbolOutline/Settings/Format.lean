import SymbolOutline.Settings

/-
Reading settings from values of a format. Settings that are not given take their standard values. A
value of the wrong sort is no setting, nor is one given twice; names that are not known are passed
over. Settings can also be given in a row, without names.
-/

namespace SymbolOutline.Settings

/-- What is wrong with a text that should say settings. -/
inductive ReadError where
  /-- The text says no settings. -/
  | unreadable
  /-- The settings are unfit for use. -/
  | unfit (fault : Fault)
deriving DecidableEq, Repr

/-- What the values of a format stand for. -/
structure Format (Value : Type) where
  text? : Value → Option String
  texts? : Value → Option (List String)
  truth? : Value → Option Bool
  number? : Value → Option Nat
  follow? : Value → Option Follow

/-- The names of the settings, in order. -/
def names : List String :=
  ["hiddenItem", "regionStart", "regionEnd", "tag", "regionEnabled", "defaultMaxDepth", "follow",
    "debug"]

namespace Format

variable {Value : Type} (format : Format Value)

/-- The settings with one of them given by name. -/
def set? (s : Settings) (name : String) (v : Value) : Option Settings :=
  match name with
  | "hiddenItem" => (format.texts? v).map fun hiddenItem => { s with hiddenItem }
  | "regionStart" => (format.text? v).map fun regionStart => { s with regionStart }
  | "regionEnd" => (format.text? v).map fun regionEnd => { s with regionEnd }
  | "tag" => (format.text? v).map fun tag => { s with tag }
  | "regionEnabled" => (format.truth? v).map fun regionEnabled => { s with regionEnabled }
  | "defaultMaxDepth" => (format.number? v).map fun defaultMaxDepth => { s with defaultMaxDepth }
  | "follow" => (format.follow? v).map fun follow => { s with follow }
  | "debug" => (format.truth? v).map fun debug => { s with debug }
  | _ => some s

/-- The settings given by name, none of them twice. -/
def ofFields? (fields : List (String × Value)) : Option Settings :=
  let known := (fields.map Prod.fst).filter (· ∈ names)
  if known.eraseDups.length < known.length then none
  else fields.foldlM (fun s field => format.set? s field.1 field.2) standard

/-- The settings given in a row. -/
def ofRow? (row : List Value) : Option Settings :=
  if names.length < row.length then none else format.ofFields? (names.zip row)

end Format

/-- Settings that are fit for use, if there are settings at all. -/
def check : Option Settings → Except ReadError Settings
  | none => .error .unreadable
  | some s =>
    match s.fault? with
    | some fault => .error (.unfit fault)
    | none => .ok s

end SymbolOutline.Settings
