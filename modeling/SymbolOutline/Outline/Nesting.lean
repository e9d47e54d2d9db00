import SymbolOutline.Outline
import SymbolOutline.Symbol

/-
From symbols to an outline. Hidden kinds go, with all that is below them; siblings are put in the
order of their spans; and a sibling whose span lies within that of an earlier one goes below it.
Children that a provider reports stay children, whether or not they lie within their parent.
-/

namespace SymbolOutline

namespace Outline

mutual
/-- The entry of a symbol and of the symbols below it, unless its kind is hidden. -/
def ofSymbol (hidden : List Kind) : Rose Symbol → Forest Item
  | .node s ts =>
    let (kind, detail) := s.unmask
    if kind ∈ hidden then []
    else [.node (Item.fresh ⟨kind, s.key.name⟩ detail s.range s.selection) (visible hidden ts)]
/-- The entries of the symbols of a forest whose kinds are not hidden, where they were. -/
def visible (hidden : List Kind) : Forest Symbol → Forest Item
  | [] => []
  | t :: ts => ofSymbol hidden t ++ visible hidden ts
end

/-- Siblings are ordered by where they start; of two that start together the longer comes first. -/
def Precedes (s t : Rose Item) : Prop :=
  ¬ t.value.range.start ≤ s.value.range.start ∨
    s.value.range.start = t.value.range.start ∧ t.value.range.stop ≤ s.value.range.stop

instance (s t : Rose Item) : Decidable (Precedes s t) := inferInstanceAs (Decidable (_ ∨ _))

/-- Siblings in order. Those with one span stay as they were. -/
def sort (ts : Forest Item) : Forest Item := ts.mergeSort fun s t => Precedes s t

/-- The trees whose spans lie within that of `t`. -/
def within (t : Rose Item) (ts : Forest Item) : Forest Item :=
  ts.filter fun s => t.value.range.Covers s.value.range

/-- The trees whose spans do not lie within that of `t`. -/
def beyond (t : Rose Item) (ts : Forest Item) : Forest Item :=
  ts.filter fun s => ¬ t.value.range.Covers s.value.range

theorem length_beyond_le (t : Rose Item) (ts : Forest Item) : (beyond t ts).length ≤ ts.length :=
  List.length_filter_le ..

/-- Puts each tree below the first tree before it whose span covers its own, behind the children
that are there already. -/
def gather : Forest Item → Forest Item
  | [] => []
  | t :: ts => t.setChildren (· ++ within t ts) :: gather (beyond t ts)
termination_by ts => ts.length
decreasing_by exact Nat.lt_succ_of_le (length_beyond_le t ts)

theorem sizeAll_within_add_beyond (t : Rose Item) (ts : Forest Item) :
    Rose.sizeAll (within t ts) + Rose.sizeAll (beyond t ts) = Rose.sizeAll ts := by
  unfold within beyond
  induction ts with
  | nil => rfl
  | cons s ts ih =>
    rw [List.filter_cons, List.filter_cons]
    by_cases h : t.value.range.Covers s.value.range <;>
      simp only [h, Rose.sizeAll, decide_true, decide_false, not_true_eq_false,
        not_false_eq_true, Bool.false_eq_true, if_true, if_false] <;> omega

/-- Nothing is lost or gained on the way below. -/
theorem sizeAll_gather (ts : Forest Item) : Rose.sizeAll (gather ts) = Rose.sizeAll ts := by
  fun_induction gather ts with
  | case1 => rfl
  | case2 t ts ih =>
    have := sizeAll_within_add_beyond t ts
    rw [Rose.sizeAll, ih, Rose.sizeAll]
    cases t with
    | node a cs => simp only [Rose.setChildren, Rose.size, Rose.sizeAll_append]; omega

theorem sizeAll_sort (ts : Forest Item) : Rose.sizeAll (sort ts) = Rose.sizeAll ts :=
  Rose.sizeAll_perm (List.mergeSort_perm ts _)

/-- Orders the siblings at every level and puts them below those that cover them. -/
def nest (ts : Forest Item) : Forest Item :=
  (gather (sort ts)).attach.map fun t => .node t.1.value (nest t.1.children)
termination_by Rose.sizeAll ts
decreasing_by
  have h := Rose.size_le_sizeAll t.2
  rw [sizeAll_gather, sizeAll_sort] at h
  exact Nat.lt_of_lt_of_le (Rose.sizeAll_children_lt t.1) h

theorem nest_eq (ts : Forest Item) :
    nest ts = (gather (sort ts)).map fun t => .node t.value (nest t.children) := by
  rw [nest]
  exact List.attach_map_val (f := fun (t : Rose Item) => Rose.node t.value (nest t.children))

/-- The outline of the symbols of a document, without those of hidden kinds. -/
def ofSymbols (hidden : List Kind) (symbols : Forest Symbol) : Outline :=
  ofForest (nest (visible hidden symbols))

end Outline

end SymbolOutline
