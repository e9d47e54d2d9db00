import SymbolOutline.Mark.Basic
import SymbolOutline.Kind
import SymbolOutline.Text.Blank

/-
The settings of an outline, and what makes them unfit for use: a keyword that is empty or has blanks
in it, or two keywords that are the same.
-/

namespace SymbolOutline

/-- Which changes in the editor the display scrolls after. -/
inductive Follow where
  | cursor | viewport | manual
deriving DecidableEq, Repr

namespace Follow

/-- The name of a choice. -/
def name : Follow → String
  | .cursor => "cursor"
  | .viewport => "viewport"
  | .manual => "manual"

/-- The choice of a name. -/
def ofName? (name : String) : Option Follow :=
  [Follow.cursor, .viewport, .manual].find? fun f => f.name = name

end Follow

/-- The settings of an outline. -/
structure Settings where
  /-- The names of the kinds to hide. -/
  hiddenItem : List String
  regionStart : String
  regionEnd : String
  tag : String
  /-- Whether documents are scanned for marks. -/
  regionEnabled : Bool
  /-- How many levels a display may expand; zero for all. -/
  defaultMaxDepth : Nat
  follow : Follow
  /-- Whether it is an error that a document has no symbols. -/
  debug : Bool
deriving DecidableEq, Repr

namespace Settings

/-- The settings where none are chosen. -/
def standard : Settings where
  hiddenItem := []
  regionStart := Keywords.standard.opener
  regionEnd := Keywords.standard.closer
  tag := Keywords.standard.tag
  regionEnabled := true
  defaultMaxDepth := 0
  follow := .viewport
  debug := false

/-- The keywords that marks are marked by. -/
def keywords (s : Settings) : Keywords := ⟨s.regionStart, s.regionEnd, s.tag⟩

/-- The kinds to hide, in order. Names of no kind are passed over. -/
def hiddenKinds (s : Settings) : List Kind :=
  let kinds := s.hiddenItem.filterMap fun name => Kind.ofName? (Text.trim name)
  Kind.named.filter fun k => k ∈ kinds

/-- How many levels a display may expand; `none` for all. -/
def maxDepth (s : Settings) : Option Nat :=
  if 0 < s.defaultMaxDepth then some s.defaultMaxDepth else none

/-- What makes settings unfit for use. Keywords go by the names of their settings. -/
inductive Fault where
  | emptyKeyword (setting : String)
  | blankInKeyword (setting : String)
  | sameKeyword (first second keyword : String)
deriving DecidableEq, Repr

namespace Fault

/-- A fault in words. -/
def message : Fault → String
  | emptyKeyword setting => "invalid configuration: `" ++ setting ++ "` must not be empty"
  | blankInKeyword setting =>
    "invalid configuration: `" ++ setting ++ "` must not contain whitespace"
  | sameKeyword first second keyword =>
    "invalid configuration: `" ++ first ++ "` and `" ++ second ++ "` are both `" ++ keyword ++ "`"

end Fault

/-- The keywords, by the names of their settings. -/
def namedKeywords (s : Settings) : List (String × String) :=
  [("regionStart", s.regionStart), ("regionEnd", s.regionEnd), ("tag", s.tag)]

/-- What is wrong with one keyword. -/
def keywordFault? (setting keyword : String) : Option Fault :=
  if Text.isBlankText keyword then some (.emptyKeyword setting)
  else if keyword.toList.any Text.isBlank then some (.blankInKeyword setting)
  else none

/-- The first two keywords that are the same. -/
def clash? : List (String × String) → Option Fault
  | [] => none
  | (first, keyword) :: rest =>
    match rest.find? fun e => e.2 = keyword with
    | some (second, _) => some (.sameKeyword first second keyword)
    | none => clash? rest

/-- The first thing wrong with the settings. -/
def fault? (s : Settings) : Option Fault :=
  (s.namedKeywords.findSome? fun e => keywordFault? e.1 e.2) <|> clash? s.namedKeywords

end Settings

end SymbolOutline
