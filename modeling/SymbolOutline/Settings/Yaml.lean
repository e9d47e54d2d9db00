import SymbolOutline.Settings.Format
import SymbolOutline.Text.Hex
import SymbolOutline.Yaml.Node

/-
Settings in YAML: a mapping with the settings by name. A text without a document chooses no settings.
-/

namespace SymbolOutline.Settings

open Yaml (Node Tag)

/-- A text that is read as a word of `sort`: plain, or a block of lines that is tagged so. -/
def wordOf? (sort : String) : Node → Option String
  | .scalar .plain _ text => some text
  | .scalar .literal (some tag) text =>
    if tag = Tag.common ++ Tag.ofString sort then some text else none
  | _ => none

/-- Nothing is written. -/
def isVoid : Node → Bool
  | .scalar .plain _ text => text = ""
  | _ => false

/-- The truth value of a word. -/
def truthOf? (word : String) : Option Bool :=
  if word ∈ ["true", "True", "TRUE"] then some true
  else if word ∈ ["false", "False", "FALSE"] then some false
  else none

/-- The number that digits stand for in a base, if it has at most 64 bits. -/
def digitsOf? (base : Nat) (cs : List Char) : Option Nat :=
  if cs = [] then none
  else
    ((cs.mapM Text.hexValue?).bind fun ds =>
      if ds.all (· < base) then some (ds.foldl (fun n d => n * base + d) 0) else none).filter
        (· < Nat.pow 2 64)

/-- Digits in a base that a sign in front says. -/
def prefixed? : List Char → Option Nat
  | '0' :: 'x' :: cs => digitsOf? 16 cs
  | '0' :: 'o' :: cs => digitsOf? 8 cs
  | '0' :: 'b' :: cs => digitsOf? 2 cs
  | _ => none

/-- The number of a word. One plus may stand in front. Decimal digits do not start with a needless
zero. -/
def numberOf? (word : String) : Option Nat :=
  let cs := match word.toList with
    | '+' :: cs => cs
    | cs => cs
  (prefixed? cs) <|>
    if cs.head? = some '0' && 1 < cs.length then none else digitsOf? 10 cs

/-- A word for nothing. -/
def isNothing : Node → Bool
  | .scalar .plain _ text => text ∈ ["", "~", "null", "Null", "NULL"]
  | _ => false

/-- The choice that a value stands for: its name, or a tag of that name on nothing. -/
def followOfNode? : Node → Option Follow
  | .scalar style tag text =>
    match tag.bind Tag.localName? with
    | some name => if isNothing (.scalar style tag text) then Follow.ofName? name else none
    | none => Follow.ofName? text
  | _ => none

/-- The text of a value, however it is written. -/
def textOf? : Node → Option String
  | .scalar _ _ text => some text
  | _ => none

/-- The texts of a sequence. -/
def textsOf? (d : Yaml.Document) : Node → Option (List String)
  | .sequence ns => ns.mapM fun n => textOf? (d.target n)
  | n => if isVoid n then some [] else none

/-- What the values in a document stand for. -/
def yamlFormat (d : Yaml.Document) : Format Node where
  text? n := textOf? (d.target n)
  texts? n := textsOf? d (d.target n)
  truth? n := (wordOf? "bool" (d.target n)).bind truthOf?
  number? n := (wordOf? "int" (d.target n)).bind numberOf?
  follow? n := followOfNode? (d.target n)

/-- The settings that a document stands for. All names must be texts. -/
def ofDocument? (d : Yaml.Document) : Option Settings :=
  match d.root with
  | .mapping es =>
    (es.mapM fun e => (textOf? (d.target e.1)).map fun name => (name, e.2)).bind
      (yamlFormat d).ofFields?
  | n => if isVoid n then some standard else none

/-- Reads settings in YAML. -/
def readYaml (text : String) : Except ReadError Settings := check ((Yaml.Document.ofText? text).bind ofDocument?)

end SymbolOutline.Settings
