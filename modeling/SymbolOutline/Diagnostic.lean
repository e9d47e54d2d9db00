import SymbolOutline.Span

/-
Diagnostics and the badges that sum them up. An entry of the outline keeps a tally: how many errors
and warnings belong to it, and whether some entry below it has any. Its badge shows one thing only,
the gravest: its own errors, errors below, its own warnings, warnings below.
-/

namespace SymbolOutline

/-- How grave a diagnostic is. -/
inductive Severity where
  | error | warning | information | hint
deriving DecidableEq, Repr

namespace Severity

/-- The severity a language server means by a number. -/
def ofCode? : Nat → Option Severity
  | 1 => some .error
  | 2 => some .warning
  | 3 => some .information
  | 4 => some .hint
  | _ => none

/-- The name of a severity. -/
def name : Severity → String
  | .error => "error"
  | .warning => "warning"
  | .information => "information"
  | .hint => "hint"

end Severity

/-- A remark on a stretch of a document. -/
structure Diagnostic where
  range : Span
  severity : Option Severity
  code : Option String
  source : Option String
  message : String
deriving DecidableEq, Repr

/-- The diagnostics of one entry: its own errors and warnings by number, and whether entries below
it have any. Counts are 32-bit words and wrap. -/
structure Tally where
  errors : UInt32
  warnings : UInt32
  errorBelow : Bool
  warningBelow : Bool
deriving DecidableEq, Repr

/-- What an entry shows of its tally. -/
structure Badge where
  severity : Option Severity
  count : Int
deriving DecidableEq, Repr

namespace Badge

/-- The badge of an entry with nothing to show. -/
def blank : Badge := ⟨none, 0⟩

end Badge

namespace Tally

/-- The tally of an entry without diagnostics. -/
def zero : Tally := ⟨0, 0, false, false⟩

instance : Inhabited Tally := ⟨zero⟩

/-- The badge shows the gravest entry of the tally; a count of -1 says that it is below. -/
def badge (t : Tally) : Badge :=
  if 0 < t.errors then ⟨some .error, t.errors.toNat⟩
  else if t.errorBelow then ⟨some .error, -1⟩
  else if 0 < t.warnings then ⟨some .warning, t.warnings.toNat⟩
  else if t.warningBelow then ⟨some .warning, -1⟩
  else .blank

end Tally

end SymbolOutline
