import SymbolOutline.Mark.Pairing
import SymbolOutline.Mark.Reader
import SymbolOutline.Text.Blank
import SymbolOutline.Text.Lines

/-
Scanning a document for marks: every line that is not blank is read by one reader, and the
marks found are paired.
-/

namespace SymbolOutline

namespace Mark

/-- Reads one numbered line, unless it is blank. -/
def readLine (r : Reader) (line : Nat × String) : Option Mark × Reader :=
  if Text.isBlankText line.2 then (none, r) else (r.read line.2 line.1).finish

/-- Reads numbered lines, one after the other. -/
def readLines (r : Reader) : List (Nat × String) → List Mark
  | [] => []
  | line :: lines =>
    let (found, r) := readLine r line
    found.toList ++ readLines r lines

end Mark

/-- The marks of a document. -/
def TextLines.marks (text : TextLines) (keywords : Keywords) : Marks :=
  .ofList (Mark.readLines (.new keywords) text.visits)

end SymbolOutline
