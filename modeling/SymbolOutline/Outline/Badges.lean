import SymbolOutline.Change
import SymbolOutline.PathSet

/-
Diagnostics put down on the outline. Errors and warnings are taken in the order of the lines they
start on. Each comes to rest at an entry whose lines contain its own and none of whose children's
do: it starts from the innermost entry around the one before that still contains it, or from the
roots if none does, and goes down by the first child that contains it. An entry counts what rests
on it, and takes note when something rests below it.

Which entries have a tally is remembered, so that the next list can begin by wiping them.
-/

namespace SymbolOutline

namespace Outline

/-- Where an entry stands: which of the roots, which of its children, and so on. -/
abbrev Address := List Nat

mutual
/-- The way down from an entry by the first child that contains the lines of a span. -/
def descend (d : Span) : Rose Item → Address
  | .node _ ts => descendFrom d 0 ts
/-- The way down from siblings, the first of which is numbered `n`. -/
def descendFrom (d : Span) (n : Nat) : Forest Item → Address
  | [] => []
  | t :: ts =>
    if t.value.range.CoversLines d then n :: descend d t else descendFrom d (n + 1) ts
end

/-- The way down from the innermost entry on an address that contains the lines of a span. -/
def settle? (d : Span) : Forest Item → Address → Option Address
  | _, [] => none
  | ts, n :: below =>
    match ts[n]? with
    | none => none
    | some t =>
      match settle? d t.children below with
      | some a => some (n :: a)
      | none => if t.value.range.CoversLines d then some (n :: descend d t) else none

/-- Where a span comes to rest when the one before it rested at `before`. It is the empty address
if no root contains the span's lines. -/
def rest (o : Outline) (before : Address) (d : Span) : Address :=
  (settle? d o before).getD (descendFrom d 0 o)

/-- Where diagnostics come to rest, one after the other. -/
def rests (o : Outline) (before : Address) : List (Span × Severity) → List (Address × Severity)
  | [] => []
  | (d, s) :: ds =>
    let here := o.rest before d
    (here, s) :: o.rests here ds

end Outline

namespace Tally

/-- Counts what rests here, which is at the empty address, and takes note of what rests below. -/
def add (t : Tally) (found : List (Outline.Address × Severity)) : Tally where
  errors := t.errors + .ofNat (found.countP fun f => f.1 = [] ∧ f.2 = .error)
  warnings := t.warnings + .ofNat (found.countP fun f => f.1 = [] ∧ f.2 = .warning)
  errorBelow := t.errorBelow || found.any fun f => f.1 ≠ [] ∧ f.2 = .error
  warningBelow := t.warningBelow || found.any fun f => f.1 ≠ [] ∧ f.2 = .warning

end Tally

namespace Outline

/-- What rests at or below the sibling numbered `n`, addressed from there. -/
def share (n : Nat) (found : List (Address × Severity)) : List (Address × Severity) :=
  found.filterMap fun
    | (m :: a, s) => if m = n then some (a, s) else none
    | ([], _) => none

mutual
/-- Adds to the tallies what rests at and below an entry. -/
def tally (found : List (Address × Severity)) : Rose Item → Rose Item
  | .node i ts => .node { i with tally := i.tally.add found } (tallyFrom 0 found ts)
/-- Adds to the tallies of siblings, the first of which is numbered `n`. -/
def tallyFrom (n : Nat) (found : List (Address × Severity)) : Forest Item → Forest Item
  | [] => []
  | t :: ts => tally (share n found) t :: tallyFrom (n + 1) found ts
end

mutual
/-- The paths of an entry and of those below it at or below which something rests. -/
def touched (found : List (Address × Severity)) : Rose Item → List Path
  | .node i ts => if found = [] then [] else i.path :: touchedFrom 0 found ts
/-- The paths of siblings at or below which something rests, the first being numbered `n`. -/
def touchedFrom (n : Nat) (found : List (Address × Severity)) : Forest Item → List Path
  | [] => []
  | t :: ts => touched (share n found) t ++ touchedFrom (n + 1) found ts
end

/-- Takes the tallies off the entries at given paths. -/
def wipe (ps : List Path) (o : Outline) : Outline :=
  ps.foldl (fun o p => modifyItem (fun i => { i with tally := .zero }) p o) o

/-- The badge at a path. -/
def badge? (o : Outline) (p : Path) : Option Badge := (o.item? p).map fun i => i.tally.badge

/-- The updates that turn one badge at a path into another. -/
def badgeUpdates (p : Path) (old new : Badge) : List Change :=
  (if old.severity = new.severity then []
    else [.update p .severity (.severity new.severity)]) ++
  (if old.count = new.count then [] else [.update p .count (.count new.count)])

end Outline

/-- A diagnostic that counts: its span, and whether it is an error or a warning. -/
def Diagnostic.grave? (d : Diagnostic) : Option (Span × Severity) :=
  match d.severity with
  | some .error => some (d.range, .error)
  | some .warning => some (d.range, .warning)
  | _ => none

/-- The diagnostics that count, in the order of the lines they start on. -/
def Diagnostic.queue (ds : List Diagnostic) : List (Span × Severity) :=
  (ds.filterMap Diagnostic.grave?).mergeSort fun d e => d.1.firstLine ≤ e.1.firstLine

/-- The memory of which entries have a tally. -/
structure Badges where
  touched : PathSet
deriving DecidableEq

namespace Badges

/-- No entry has a tally. -/
def none : Badges := ⟨∅⟩

/-- Puts down a list of diagnostics in place of the one before, and says which badges changed. -/
def apply (b : Badges) (o : Outline) (ds : List Diagnostic) : Badges × Outline × List Change :=
  let wiped : Outline := Outline.wipe b.touched.toList o
  let found := wiped.rests [] (Diagnostic.queue ds)
  let outline : Outline := Outline.tallyFrom 0 found wiped
  let touched := PathSet.ofList (Outline.touchedFrom 0 found wiped)
  let known := b.touched.toList.filter fun p => (o.badge? p).isSome
  let changes := (touched.insertAll known).toList.flatMap fun p =>
    match outline.badge? p with
    | Option.none => []
    | some new =>
      let old := if p ∈ known then (o.badge? p).getD .blank else .blank
      Outline.badgeUpdates p old new
  (⟨touched⟩, outline, changes)

end Badges

end SymbolOutline
