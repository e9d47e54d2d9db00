import SymbolOutline.Json.Reader
import SymbolOutline.Settings.Format

/-
Settings in JSON: an object with the settings by name, or a list of them in a row.
-/

namespace SymbolOutline.Settings

/-- The choice that a value stands for: its name, or an object with `null` under that name. -/
def followOfJson? : Json → Option Follow
  | .str name => Follow.ofName? name
  | .obj [(name, .null)] => Follow.ofName? name
  | _ => none

/-- What JSON values stand for. Whole numbers must be written as such. -/
def jsonFormat : Format Json where
  text? := Json.str?
  texts? v := v.arr?.bind fun vs => vs.mapM Json.str?
  truth? := Json.bool?
  number? := Json.nat?
  follow? := followOfJson?

/-- The settings that a value stands for. -/
def ofJson? : Json → Option Settings
  | .obj fields => jsonFormat.ofFields? fields
  | .arr row => jsonFormat.ofRow? row
  | _ => none

/-- Reads settings in JSON. -/
def readJson (text : String) : Except ReadError Settings :=
  check ((Json.ofTextWith? names text).bind ofJson?)

end SymbolOutline.Settings
