import SymbolOutline.Change

/-
The changes from one outline to another. Siblings are matched by key. What is left of the old and of
the new siblings is compared at both ends, which finds entries that stayed or went from one end to
the other; failing that, the first new sibling is looked for among all old ones, and moved if it is
there. The first new sibling that is nowhere among the old ones ends the comparison: it is inserted,
and then what is left of the old siblings is deleted and what is left of the new ones inserted.

Whether an entry is expanded is not compared. The expansion of each matched old entry is put down
under the new entry's path instead, to be lent to the new outline.
-/

namespace SymbolOutline

/-- The outcome of a comparison: changes to carry out in order, and the expansion of the matched old
entries, by new path, in the order they were matched. -/
structure Delta where
  changes : List Change
  kept : List (Path × Bool)
deriving DecidableEq

namespace Delta

/-- The outcome of comparing nothing. -/
def none : Delta := ⟨[], []⟩

/-- An outcome with one change. -/
def just (c : Change) : Delta := ⟨[c], []⟩

instance : Append Delta := ⟨fun d e => ⟨d.changes ++ e.changes, d.kept ++ e.kept⟩⟩

@[simp] theorem changes_append (d e : Delta) : (d ++ e).changes = d.changes ++ e.changes := rfl

@[simp] theorem kept_append (d e : Delta) : (d ++ e).kept = d.kept ++ e.kept := rfl

/-- The expansion of the matched old entries, by new path. -/
def expansion (d : Delta) : Expansion := Expansion.ofEntries d.kept

end Delta

namespace Item

/-- The properties that are compared, with their values. -/
def shown (i : Item) : List (Property × PropertyValue) :=
  [(.detail, .text i.detail), (.range, .span i.range), (.selection, .span i.selection),
    (.inView, .flag i.inView), (.focused, .flag i.focused),
    (.severity, .severity i.tally.badge.severity), (.count, .count i.tally.badge.count)]

/-- The updates that make one item look like another, at the path of the other. -/
def updatesTo (i j : Item) : List Change :=
  (i.shown.zip j.shown).filterMap fun (old, new) =>
    if old.2 = new.2 then Option.none else some (.update j.path new.1 new.2)

end Item

namespace Outline

/-- What is left of the old siblings goes, and what is left of the new ones comes. -/
def exchange (place : Path) (old new : Forest Item) (next : Option Key) : Delta :=
  (if old = [] then .none else .just (.delete place (old.map Rose.key))) ++
    (if new = [] then .none else .just (.insert place next new))

theorem sizeAll_dropLast_add_getLast (ts : Forest Item) (h : ts ≠ []) :
    Rose.sizeAll ts.dropLast + (ts.getLast h).size = Rose.sizeAll ts := by
  have := congrArg Rose.sizeAll (List.dropLast_concat_getLast h)
  rw [Rose.sizeAll_append] at this
  simpa [Rose.sizeAll] using this

theorem sizeAll_removeChild_add {k : Key} {ts : Forest Item} {t : Rose Item}
    (h : Forest.child? ts k = some t) :
    Rose.sizeAll (Forest.removeChild k ts) + t.size = Rose.sizeAll ts := by
  unfold Forest.child? at h
  unfold Forest.removeChild
  induction ts with
  | nil => simp at h
  | cons s ts ih =>
    rw [List.find?_cons] at h
    rw [List.eraseP_cons]
    by_cases hs : s.key = k
    · simp only [hs, decide_true, Option.some.injEq] at h
      subst h
      simp only [hs, decide_true, cond_true, Rose.sizeAll]; omega
    · simp only [hs, decide_false] at h
      simp only [hs, decide_false, cond_false, Rose.sizeAll]
      have := ih h; omega

mutual
/-- Compares an old entry with the new one that it is matched with. -/
def revise (old new : Rose Item) : Delta :=
  ⟨old.value.updatesTo new.value, [(new.value.path, old.value.expanded)]⟩ ++
    (if new.children = [] then
      exchange new.value.path old.children [] Option.none
    else if old.children = [] then
      exchange new.value.path [] new.children Option.none
    else
      reconcile new.value.path old.children new.children Option.none)
termination_by 2 * (old.size + new.size)
decreasing_by
  have := Rose.sizeAll_children_lt old
  have := Rose.sizeAll_children_lt new
  omega
/-- Compares what is left of the old siblings at a place with what is left of the new ones. `next` is
the key of the new sibling behind those left, if there is one. -/
def reconcile (place : Path) (old new : Forest Item) (next : Option Key) : Delta :=
  match old, new with
  | [], new => exchange place [] new next
  | old, [] => exchange place old [] next
  | o :: os, n :: ns =>
    let oLast := (o :: os).getLast (List.cons_ne_nil o os)
    let nLast := (n :: ns).getLast (List.cons_ne_nil n ns)
    if o.key = n.key then
      revise o n ++ reconcile place os ns next
    else if oLast.key = nLast.key then
      revise oLast nLast ++
        reconcile place (o :: os).dropLast (n :: ns).dropLast (some nLast.key)
    else if o.key = nLast.key then
      revise o nLast ++ .just (.move place [o.key] next) ++
        reconcile place os (n :: ns).dropLast (some nLast.key)
    else if oLast.key = n.key then
      revise oLast n ++ .just (.move place [oLast.key] (some o.key)) ++
        reconcile place (o :: os).dropLast ns next
    else
      match _h : Forest.child? (o :: os) n.key with
      | some m =>
        revise m n ++ .just (.move place [m.key] (some o.key)) ++
          reconcile place (Forest.removeChild n.key (o :: os)) ns next
      | Option.none =>
        .just (.insert place (some o.key) [n]) ++ exchange place (o :: os) ns next
termination_by 2 * (Rose.sizeAll old + Rose.sizeAll new) + 1
decreasing_by
  all_goals
    have hol : Rose.sizeAll (o :: os).dropLast + oLast.size = Rose.sizeAll (o :: os) :=
      sizeAll_dropLast_add_getLast ..
    have hnl : Rose.sizeAll (n :: ns).dropLast + nLast.size = Rose.sizeAll (n :: ns) :=
      sizeAll_dropLast_add_getLast ..
    have hop := Rose.size_pos oLast
    have hnp := Rose.size_pos nLast
    have hof := Rose.size_pos o
    have hnf := Rose.size_pos n
    simp only [Rose.sizeAll, oLast, nLast] at hol hnl hop hnp ⊢
    first
      | omega
      | have hm := sizeAll_removeChild_add ‹Forest.child? _ _ = some _›
        simp only [Rose.sizeAll] at hm
        omega
end

/-- The changes from one outline to another. -/
def changesTo (old new : Outline) : Delta := reconcile [] old new Option.none

end Outline

end SymbolOutline
