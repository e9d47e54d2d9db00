import SymbolOutline.Text.Lines

/-
Editable texts. What they are kept in is left open: a rope counts its characters and its lines, hands the
lines out with the breaks that end them, one by one or in a row, takes characters out and puts a text in.
Edits and lines without their ends are made of that.
-/

namespace SymbolOutline

/-- What an editable text is kept in. -/
class Rope (R : Type) where
  ofString : String → R
  text : R → String
  /-- The number of characters. -/
  length : R → Nat
  /-- Takes out the characters from one offset to another. -/
  remove : R → Nat → Nat → R
  /-- Puts a text in at an offset. -/
  insert : R → Nat → String → R
  lineCount : R → Nat
  /-- The line with a number, together with the break that ends it. -/
  line : R → Nat → String
  /-- All lines, each together with the break that ends it. -/
  lines : R → List String

namespace Rope

variable {R : Type} [Rope R]

/-- Puts a text in place of the characters from `start` to `stop`. Offsets beyond the end mean the
end, and a `stop` before `start` means `start`. -/
def replace (r : R) (start stop : Nat) (new : String) : R :=
  let start := min start (length r)
  let stop := max start (min stop (length r))
  let rest := if start < stop then remove r start stop else r
  if new = "" then rest else insert rest start new

/-- The lines of a rope. Of the break that ends a line only a line feed and then a carriage return are
taken off. -/
def textLines (r : R) : TextLines where
  count := lineCount r
  line? n :=
    if lineCount r ≤ n then none
    else some (String.ofList (Text.dropEnd '\r' (Text.dropEnd '\n' (line r n).toList)))
  visits := (Text.numbered (lines r)).map fun v =>
    let line := (Text.stripEnd? '\n' v.2.toList).getD v.2.toList
    (v.1, String.ofList ((Text.stripEnd? '\r' line).getD line))

end Rope

end SymbolOutline
