import Mathlib.Data.List.Sort
import SymbolOutline.Outline.Badges
import SymbolOutline.Proofs.Layout

/-
Sorting by insertion. A merge sort and an insertion sort are both stable, so they do the same
(`mergeSort_eq_insertionSort`). Insertion is recursion on the list, so the outline of some symbols and the
order of some diagnostics can be evaluated with it where a merge sort is stuck (`ofSymbols_eq_inserted`,
`queue_eq_insertionSort`).
-/

namespace SymbolOutline

section

variable {α : Type} {r : α → α → Prop} [DecidableRel r]

/-- What goes behind some members and in front of all others is inserted between them. -/
theorem orderedInsert_append {a : α} {before after : List α} (hbefore : ∀ b ∈ before, ¬ r a b)
    (hafter : ∀ b ∈ after, r a b) :
    (before ++ after).orderedInsert r a = before ++ a :: after := by
  induction before with
  | nil =>
    cases after with
    | nil => rfl
    | cons b after => exact List.orderedInsert_cons_of_le r after (hafter b List.mem_cons_self)
  | cons b before ih =>
    obtain ⟨hb, hbefore⟩ := List.forall_mem_cons.1 hbefore
    rw [List.cons_append, List.orderedInsert_cons, if_neg hb, ih hbefore]
    rfl

/-- A merge sort keeps equals in order, as an insertion sort does. So the order need not be antisymmetric, as
`List.mergeSort_eq_insertionSort` has it. -/
theorem mergeSort_eq_insertionSort (htrans : ∀ {a b c}, r a b → r b c → r a c)
    (htotal : ∀ a b, r a b ∨ r b a) (xs : List α) :
    xs.mergeSort (fun a b => r a b) = xs.insertionSort r := by
  have htrans' : ∀ a b c, decide (r a b) = true → decide (r b c) = true → decide (r a c) = true :=
    fun a b c hab hbc => decide_eq_true (htrans (of_decide_eq_true hab) (of_decide_eq_true hbc))
  have htotal' : ∀ a b, (decide (r a b) || decide (r b a)) = true := fun a b => by
    simpa using htotal a b
  induction xs with
  | nil => simp
  | cons a xs ih =>
    obtain ⟨before, after, hsorted, hrest, hbefore⟩ := List.mergeSort_cons htrans' htotal' a xs
    have hpairwise := List.pairwise_mergeSort htrans' htotal' (a :: xs)
    rw [hsorted, List.pairwise_append, List.pairwise_cons] at hpairwise
    rw [List.insertionSort_cons, ← ih, hsorted, hrest, orderedInsert_append]
    · exact fun b hb => by simpa using hbefore b hb
    · exact fun b hb => of_decide_eq_true (hpairwise.2.1.1 b hb)

end

namespace Outline

theorem sort_eq_insertionSort (ts : Forest Item) : sort ts = ts.insertionSort Precedes :=
  mergeSort_eq_insertionSort (r := Precedes) Precedes.trans precedes_total ts

/-- Orders the siblings at every level by insertion and puts them below those that cover them. -/
def inserted (ts : Forest Item) : Forest Item :=
  (gather (ts.insertionSort Precedes)).attach.map fun t => .node t.1.value (inserted t.1.children)
termination_by Rose.sizeAll ts
decreasing_by
  have h := Rose.size_le_sizeAll t.2
  rw [sizeAll_gather, Rose.sizeAll_perm (List.perm_insertionSort Precedes ts)] at h
  exact Nat.lt_of_lt_of_le (Rose.sizeAll_children_lt t.1) h

theorem nest_eq_inserted (ts : Forest Item) : nest ts = inserted ts := by
  induction ts using inserted.induct with
  | case1 ts ih =>
    rw [nest, sort_eq_insertionSort, inserted]
    exact List.map_congr_left fun t _ => congrArg (Rose.node t.1.value) (ih t)

theorem ofSymbols_eq_inserted (hidden : List Kind) (symbols : Forest Symbol) :
    ofSymbols hidden symbols = ofForest (inserted (visible hidden symbols)) :=
  congrArg ofForest (nest_eq_inserted _)

end Outline

theorem Diagnostic.queue_eq_insertionSort (ds : List Diagnostic) : queue ds =
    (ds.filterMap grave?).insertionSort fun d e => d.1.firstLine ≤ e.1.firstLine :=
  mergeSort_eq_insertionSort (r := fun d e : Span × Severity => d.1.firstLine ≤ e.1.firstLine)
    Nat.le_trans (fun _ _ => Nat.le_total _ _) _

end SymbolOutline
