/-
Positions in a text and the spans between them. A span keeps its end points in order, so every
other module may rely on `start ≤ stop`; `Span.between` is the one way in for end points that come
in either order.
-/

namespace SymbolOutline

/-- A zero-based line and column; columns count characters. -/
structure Position where
  line : Nat
  column : Nat
deriving DecidableEq, Repr

namespace Position

/-- Positions are ordered by line, then by column. -/
instance : LE Position where
  le a b := a.line < b.line ∨ a.line = b.line ∧ a.column ≤ b.column

theorem le_def {a b : Position} :
    a ≤ b ↔ a.line < b.line ∨ a.line = b.line ∧ a.column ≤ b.column := Iff.rfl

instance (a b : Position) : Decidable (a ≤ b) :=
  inferInstanceAs (Decidable (_ ∨ _))

protected theorem le_refl (a : Position) : a ≤ a := .inr ⟨rfl, Nat.le_refl _⟩

protected theorem le_trans {a b c : Position} (h : a ≤ b) (h' : b ≤ c) : a ≤ c := by
  simp only [le_def] at *; omega

protected theorem le_total (a b : Position) : a ≤ b ∨ b ≤ a := by
  simp only [le_def]; omega

protected theorem le_antisymm {a b : Position} (h : a ≤ b) (h' : b ≤ a) : a = b := by
  cases a; cases b
  simp only [le_def, Position.mk.injEq] at *; omega

theorem line_le {a b : Position} (h : a ≤ b) : a.line ≤ b.line := by
  simp only [le_def] at h; omega

/-- The earlier of two positions. -/
protected def min (a b : Position) : Position := if a ≤ b then a else b

/-- The later of two positions. -/
protected def max (a b : Position) : Position := if a ≤ b then b else a

theorem min_le_left (a b : Position) : a.min b ≤ a := by
  unfold Position.min; split
  · exact Position.le_refl a
  · exact (Position.le_total a b).resolve_left ‹_›

theorem le_max_left (a b : Position) : a ≤ a.max b := by
  unfold Position.max; split
  · assumption
  · exact Position.le_refl a

end Position

/-- A stretch of text from `start` up to `stop`. -/
structure Span where
  start : Position
  stop : Position
  ordered : start ≤ stop
deriving DecidableEq, Repr

namespace Span

/-- The span between two positions, whichever comes first. -/
def between (a b : Position) : Span :=
  if h : a ≤ b then ⟨a, b, h⟩ else ⟨b, a, (Position.le_total a b).resolve_left h⟩

/-- The span between two positions given by their coordinates. -/
def ofCoords (startLine startColumn stopLine stopColumn : Nat) : Span :=
  between ⟨startLine, startColumn⟩ ⟨stopLine, stopColumn⟩

/-- The span from the start of one line to the start of another. -/
def ofLines (first last : Nat) : Span := ofCoords first 0 last 0

/-- The line a span starts on. -/
def firstLine (s : Span) : Nat := s.start.line

/-- The line a span ends on. -/
def lastLine (s : Span) : Nat := s.stop.line

theorem firstLine_le_lastLine (s : Span) : s.firstLine ≤ s.lastLine :=
  Position.line_le s.ordered

/-- `t` lies within `s`. -/
def Covers (s t : Span) : Prop := s.start ≤ t.start ∧ t.stop ≤ s.stop

instance (s t : Span) : Decidable (s.Covers t) := inferInstanceAs (Decidable (_ ∧ _))

/-- `p` lies within `s`; both end points belong to the span. -/
def Touches (s : Span) (p : Position) : Prop := s.start ≤ p ∧ p ≤ s.stop

instance (s : Span) (p : Position) : Decidable (s.Touches p) := inferInstanceAs (Decidable (_ ∧ _))

/-- The lines of `t` are among those of `s`. -/
def CoversLines (s t : Span) : Prop := s.firstLine ≤ t.firstLine ∧ t.lastLine ≤ s.lastLine

instance (s t : Span) : Decidable (s.CoversLines t) := inferInstanceAs (Decidable (_ ∧ _))

/-- The smallest span covering both. -/
def union (s t : Span) : Span where
  start := s.start.min t.start
  stop := s.stop.max t.stop
  ordered := Position.le_trans (Position.min_le_left ..)
    (Position.le_trans s.ordered (Position.le_max_left ..))

end Span

end SymbolOutline
