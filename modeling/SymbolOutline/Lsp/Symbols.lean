import SymbolOutline.Diagnostic
import SymbolOutline.Document
import SymbolOutline.Json.Basic
import SymbolOutline.Symbol

/-
Reading what language servers send: the symbols of a document and its diagnostics. What is malformed
is passed over, and what is next to it is read all the same. Columns are taken as they come.
-/

namespace SymbolOutline.Lsp

/-- A position. -/
def position? (v : Json) : Option Position := do
  let line ← (← v.field? "line").nat?
  let column ← (← v.field? "character").nat?
  return ⟨line, column⟩

/-- A span, whose end points may come in either order. -/
def span? (v : Json) : Option Span := do
  let start ← position? (← v.field? "start")
  let stop ← position? (← v.field? "end")
  return .between start stop

/-- The text under a name, if there is a text. -/
def text? (name : String) (v : Json) : Option String := (v.field? name).bind Json.str?

/-- A symbol's key: its name, and its kind by number. Of the number the lowest 32 bits count. -/
def key? (v : Json) : Option Key := do
  let name ← text? "name" v
  let code ← (← v.field? "kind").nat?
  return ⟨.ofCode (.ofNat code), name⟩

/-- A symbol that may have symbols below it, without those. -/
def nestedSymbol? (v : Json) : Option Symbol := do
  let key ← key? v
  let range ← span? (← v.field? "range")
  let selection ← span? (← v.field? "selectionRange")
  return ⟨key, text? "detail" v, range, selection⟩

/-- A symbol that comes by itself. The name of what contains it is its detail. -/
def flatSymbol? (v : Json) : Option Symbol := do
  let key ← key? v
  let range ← span? (← (← v.field? "location").field? "range")
  return ⟨key, text? "containerName" v, range, range⟩

mutual
/-- The symbols that a value describes, one or none, with those below. -/
def nested : Json → Forest Symbol
  | .obj fields =>
    match nestedSymbol? (.obj fields) with
    | some s => [.node s (childrenOf fields)]
    | none => []
  | _ => []
/-- The symbols below the one described by an object: the members of the list that is called
`children`, the last such counting. -/
def childrenOf : List (String × Json) → Forest Symbol
  | [] => []
  | (name, v) :: fields =>
    if name = "children" ∧ ¬ fields.any (fun f => f.1 = "children") then nestedIn v
    else childrenOf fields
/-- The symbols that the members of a list describe. -/
def nestedIn : Json → Forest Symbol
  | .arr vs => nestedAll vs
  | _ => []
/-- The symbols that values describe. -/
def nestedAll : List Json → Forest Symbol
  | [] => []
  | v :: vs => nested v ++ nestedAll vs
end

/-- The symbols that an item of an answer describes, in either form. -/
def item (v : Json) : Forest Symbol :=
  match nested v with
  | [] => (flatSymbol? v).toList.map fun s => .node s []
  | ts => ts

/-- The symbols in an answer to a request for the symbols of a document. -/
def symbols (answer : Json) : Forest Symbol := (answer.arr?.getD []).flatMap item

/-- The code of a diagnostic: a text, or a number in writing. -/
def code? : Json → Option String
  | .str s => some s
  | .int n => some (toString n)
  | .real x => some (Json.realText x)
  | _ => none

/-- A diagnostic. -/
def diagnostic? (v : Json) : Option Diagnostic := do
  let range ← span? (← v.field? "range")
  let message ← text? "message" v
  return {
    range := range
    severity := ((v.field? "severity").bind Json.nat?).bind Severity.ofCode?
    code := (v.field? "code").bind code?
    source := text? "source" v
    message := message }

/-- A document and its diagnostics. -/
def diagnostics? (params : Json) : Option (Document × List Diagnostic) := do
  let uri ← text? "uri" params
  let found := ((params.field? "diagnostics").bind Json.arr?).getD []
  return (⟨uri⟩, found.filterMap diagnostic?)

end SymbolOutline.Lsp
