import SymbolOutline.Outline

/-
Which items a stretch of lines concerns. A query visits the items from the roots down, and goes
below an item only where the item's lines overlap the lines asked for. An item is in range when it
starts within those lines; and when neither it nor an earlier sibling, nor anything below them, was
found in range, it also is when its lines cover all lines asked for. That second rule is what finds
the function around a cursor in its body.
-/

namespace SymbolOutline

namespace Outline

/-- The lines a query asks for, from `first` to `last`. -/
structure Lines where
  first : Nat
  last : Nat
deriving DecidableEq, Repr

/-- The lines a span reaches. -/
def linesOf (s : Span) : Lines := ⟨s.firstLine, s.lastLine⟩

/-- What a query has found so far. -/
structure Findings where
  /-- The items in range, in the order they were found to be. -/
  inRange : List Item
  /-- The items whose lines overlap the query, each after the items below it. -/
  overlapping : List Item
  /-- The other items visited, each after the items below it, with their distances. -/
  missed : List (Nat × Item)
deriving DecidableEq, Repr

namespace Findings

/-- The findings before the first visit. -/
def none : Findings := ⟨[], [], []⟩

/-- The findings of one visit and of a later one. -/
def and (f g : Findings) : Findings :=
  ⟨f.inRange ++ g.inRange, f.overlapping ++ g.overlapping, f.missed ++ g.missed⟩

end Findings

namespace Lines

/-- The item starts within the lines. -/
def Starts (q : Lines) (i : Item) : Prop := q.first ≤ i.range.firstLine ∧ i.range.firstLine ≤ q.last

instance (q : Lines) (i : Item) : Decidable (q.Starts i) := inferInstanceAs (Decidable (_ ∧ _))

/-- The item's lines and the lines asked for have a line in common. -/
def Overlaps (q : Lines) (i : Item) : Prop :=
  i.range.firstLine ≤ q.last ∧ q.first ≤ i.range.lastLine

instance (q : Lines) (i : Item) : Decidable (q.Overlaps i) := inferInstanceAs (Decidable (_ ∧ _))

/-- The item's lines include all lines asked for. -/
def LiesIn (q : Lines) (i : Item) : Prop := i.range.firstLine ≤ q.first ∧ q.last ≤ i.range.lastLine

instance (q : Lines) (i : Item) : Decidable (q.LiesIn i) := inferInstanceAs (Decidable (_ ∧ _))

/-- How far apart two lines are. -/
def apart (a b : Nat) : Nat := (a - b) + (b - a)

/-- How far the item's first line is from the nearer end of the lines asked for. -/
def distance (q : Lines) (i : Item) : Nat :=
  min (apart i.range.firstLine q.last) (apart i.range.firstLine q.first)

end Lines

mutual
/-- Visits an item, and the items below it where its lines overlap the query. `found` says whether
an earlier sibling, or an item below one, is in range; the result says it of the next sibling. -/
def visit (q : Lines) (found : Bool) : Rose Item → Findings × Bool
  | .node i ts =>
    let starts := decide (q.Starts i)
    let (below, foundBelow) :=
      if q.Overlaps i then visitAll q false ts else (Findings.none, false)
    let foundHere := found || starts || foundBelow
    let surrounds := !foundHere && decide (q.LiesIn i)
    ({ inRange :=
        (if starts then [i] else []) ++ below.inRange ++ (if surrounds then [i] else [])
       overlapping := below.overlapping ++ (if q.Overlaps i then [i] else [])
       missed := below.missed ++ (if starts || surrounds then [] else [(q.distance i, i)]) },
      foundHere || surrounds)
/-- Visits siblings one after the other. -/
def visitAll (q : Lines) (found : Bool) : Forest Item → Findings × Bool
  | [] => (Findings.none, found)
  | t :: ts =>
    let (here, found) := visit q found t
    let (later, found) := visitAll q found ts
    (here.and later, found)
end

/-- What a query finds in an outline. -/
def search (q : Lines) (o : Outline) : Findings := (visitAll q false o).1

/-- The first of the nearest items, if it is nearer than a limit. -/
def nearest (limit : Nat) : List (Nat × Item) → Option Item
  | [] => none
  | (d, i) :: rest => if d < limit then some ((nearest d rest).getD i) else nearest limit rest

/-- The distance that counts as out of reach: the greatest 64-bit word. -/
def outOfReach : Nat := Nat.pow 2 64 - 1

namespace Findings

/-- The nearest item that is not in range. -/
def closest (f : Findings) : Option Item := nearest outOfReach f.missed

end Findings

end Outline

end SymbolOutline
