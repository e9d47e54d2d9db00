import SymbolOutline.Mark.Basic

/-
Pairing openers with closers. A closer with a name closes the latest open region of that name, and
one without a name the latest open region. What finds no partner is a problem of the document.
-/

namespace SymbolOutline

/-- An opener and the closer it is paired with. -/
structure Region where
  opener : Mark
  closer : Mark
deriving DecidableEq, Repr

namespace Region

/-- The name of a region is that of its opener. -/
def name (r : Region) : String := r.opener.nameText?.getD ""

/-- A region reaches from its opener to the end of its closer. -/
def range (r : Region) : Span := r.opener.range.union r.closer.range

end Region

/-- What is wrong with a mark. -/
inductive Fault where
  | unmatchedCloser | unclosedOpener
deriving DecidableEq, Repr

/-- A mark that found no partner. -/
structure Problem where
  fault : Fault
  mark : Mark
deriving DecidableEq, Repr

namespace Problem

/-- A problem in words. -/
def message (p : Problem) : String :=
  let name := p.mark.nameText?.getD "<unnamed>"
  match p.fault with
  | .unmatchedCloser =>
    "`" ++ p.mark.keyword.text ++ "` closes no open region named `" ++ name ++ "`"
  | .unclosedOpener => "region `" ++ name ++ "` is never closed"

end Problem

/-- The marks of a document: its regions in the order of their closers, its tags in order, and
the problems, unmatched closers first. -/
structure Marks where
  regions : List Region
  tags : List Mark
  problems : List Problem
deriving DecidableEq, Repr

namespace Marks

/-- A document without marks. -/
def none : Marks := ⟨[], [], []⟩

/-- There are neither regions nor tags. -/
def isEmpty (s : Marks) : Bool := s.regions.isEmpty && s.tags.isEmpty

end Marks

/-- The marks of a document up to some point. -/
structure Pairing where
  /-- The openers that wait for a closer, the latest first. -/
  pending : List Mark
  regions : List Region
  tags : List Mark
  unmatched : List Mark
deriving DecidableEq, Repr

namespace Pairing

/-- No mark has come yet. -/
def start : Pairing := ⟨[], [], [], []⟩

/-- The closer may close the region that the opener opens. -/
def Closes (closer opener : Mark) : Prop :=
  closer.nameText? = none ∨ opener.nameText? = closer.nameText?

instance (closer opener : Mark) : Decidable (Closes closer opener) :=
  inferInstanceAs (Decidable (_ ∨ _))

/-- Takes the next mark. -/
def push (p : Pairing) (a : Mark) : Pairing :=
  match a.marker with
  | .tag => { p with tags := p.tags ++ [a] }
  | .opener => { p with pending := a :: p.pending }
  | .closer =>
    match p.pending.find? fun o => Closes a o with
    | some o =>
      { p with
        pending := p.pending.eraseP fun o => Closes a o
        regions := p.regions ++ [⟨o, a⟩] }
    | none => { p with unmatched := p.unmatched ++ [a] }

/-- Ends the document. Openers that still wait are problems. -/
def finish (p : Pairing) : Marks where
  regions := p.regions
  tags := p.tags
  problems :=
    p.unmatched.map (Problem.mk .unmatchedCloser) ++
      p.pending.reverse.map (Problem.mk .unclosedOpener)

end Pairing

namespace Marks

/-- The marks that come one after the other. -/
def ofList (as : List Mark) : Marks := (as.foldl Pairing.push .start).finish

end Marks

end SymbolOutline
