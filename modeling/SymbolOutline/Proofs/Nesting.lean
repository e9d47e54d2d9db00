import SymbolOutline.Outline.Nesting
import SymbolOutline.Proofs.Paths

/-
From symbols to an outline. Putting siblings in order and below those that cover them rearranges
items, but neither loses nor adds any (`perm_nest`). So nothing has happened yet on the items of an
outline made from symbols (`fresh_of_mem_ofSymbols`).
-/

namespace SymbolOutline.Outline

open Forest Rose

/-! ## Rearranging a forest -/

theorem perm_within_beyond (t : Rose Item) (ts : Forest Item) :
    (within t ts ++ beyond t ts).Perm ts := by
  have := List.filter_append_perm (fun s => decide (t.value.range.Covers s.value.range)) ts
  simpa [within, beyond] using this

/-- What holds of a forest and of any that it is rearranged into: it is enough that it goes through
trees and siblings, that neighbours may change places, and that a tree may go below the one before it
if that one covers it. -/
structure Arranges (R : Forest Item → Forest Item → Prop) : Prop where
  refl : ∀ ts, R ts ts
  trans : ∀ {ss ts us}, R ss ts → R ts us → R ss us
  cons : ∀ {cs ds ss ts} (i : Item), R cs ds → R ss ts → R (node i cs :: ss) (node i ds :: ts)
  swap : ∀ s t ts, R (s :: t :: ts) (t :: s :: ts)
  absorb : ∀ (i : Item) cs (s : Rose Item) ts, i.range.Covers s.value.range →
    R (node i cs :: s :: ts) (node i (cs ++ [s]) :: ts)

namespace Arranges

variable {R : Forest Item → Forest Item → Prop}

theorem of_perm (hR : Arranges R) {ss ts : Forest Item} (h : ss.Perm ts) : R ss ts := by
  induction h with
  | nil => exact hR.refl []
  | cons t _ ih =>
    obtain ⟨i, cs⟩ := t
    exact hR.cons i (hR.refl cs) ih
  | swap s t ts => exact hR.swap t s ts
  | trans _ _ ih ih' => exact hR.trans ih ih'

/-- Some trees go below the one before them. -/
theorem absorbAll (hR : Arranges R) (i : Item) (cs ts : Forest Item) {ss : Forest Item}
    (h : ∀ s ∈ ss, i.range.Covers s.value.range) :
    R (node i cs :: (ss ++ ts)) (node i (cs ++ ss) :: ts) := by
  induction ss generalizing cs with
  | nil =>
    rw [List.append_nil]
    exact hR.refl _
  | cons s ss ih =>
    have first := hR.absorb i cs s (ss ++ ts) (h s (List.mem_cons_self ..))
    have rest := ih (cs ++ [s]) fun t ht => h t (List.mem_cons_of_mem _ ht)
    rw [List.append_assoc] at rest
    exact hR.trans first rest

theorem gather (hR : Arranges R) (ts : Forest Item) : R ts (gather ts) := by
  fun_induction Outline.gather ts with
  | case1 => exact hR.refl []
  | case2 t ts ih =>
    obtain ⟨i, cs⟩ := t
    -- what the tree covers is brought up to it, and goes below it
    have up := hR.of_perm ((perm_within_beyond (node i cs) ts).symm.cons (node i cs))
    have covered : ∀ s ∈ within (node i cs) ts, i.range.Covers s.value.range :=
      fun s hs => of_decide_eq_true (List.mem_filter.1 hs).2
    have below := hR.absorbAll i cs (beyond (node i cs) ts) covered
    exact hR.trans (hR.trans up below) (hR.cons i (hR.refl _) ih)

theorem nest (hR : Arranges R) (ts : Forest Item) : R ts (nest ts) := by
  induction ts using Outline.nest.induct with
  | case1 ts ih =>
    -- the hypothesis speaks of the gathered trees only, so a part of them is carried along
    have below : ∀ ss : Forest Item, (∀ t ∈ ss, t ∈ Outline.gather (sort ts)) →
        R ss (ss.map fun t => node t.value (Outline.nest t.children)) := by
      intro ss
      induction ss with
      | nil => exact fun _ => hR.refl []
      | cons t ss ihs =>
        intro h
        have here := ih ⟨t, h t (List.mem_cons_self ..)⟩
        obtain ⟨i, cs⟩ := t
        exact hR.cons i here (ihs fun u hu => h u (List.mem_cons_of_mem _ hu))
    have sorted : R ts (sort ts) := hR.of_perm (List.mergeSort_perm ts _).symm
    rw [nest_eq]
    exact hR.trans (hR.trans sorted (hR.gather _)) (below _ fun _ ht => ht)

end Arranges

theorem arranges_perm : Arranges fun ss ts => (valuesAll ts).Perm (valuesAll ss) where
  refl ts := .refl _
  trans h h' := List.Perm.trans h' h
  cons i hbelow hbeside := List.Perm.cons i (List.Perm.append hbelow hbeside)
  swap s t ts := by
    rw [valuesAll, valuesAll, valuesAll, valuesAll, ← List.append_assoc, ← List.append_assoc]
    exact List.perm_append_comm.append_right _
  absorb i cs s ts _ := by
    simp [valuesAll, values, valuesAll_append]

/-- The items of a nested forest are those of the forest. -/
theorem perm_nest (ts : Forest Item) : (valuesAll (nest ts)).Perm (valuesAll ts) :=
  arranges_perm.nest ts

/-! ## Fresh items -/

/-- Every item of the entries of symbols is fresh. -/
theorem fresh_of_mem_visible {hidden : List Kind} {ts : Forest Symbol} {i : Item}
    (h : i ∈ valuesAll (visible hidden ts)) :
    ∃ key detail range selection, i = .fresh key detail range selection := by
  induction ts using induct_forest with
  | nil => cases h
  | cons s cs ts ihc ih =>
    rw [visible, valuesAll_append] at h
    rcases List.mem_append.1 h with h | h
    · rw [ofSymbol] at h
      simp only at h
      split at h
      · cases h
      · rw [valuesAll_cons, valuesAll_nil, List.append_nil] at h
        rcases List.mem_cons.1 h with rfl | h
        · exact ⟨_, _, _, _, rfl⟩
        · exact ihc h
    · exact ih h

/-- Locating a forest writes paths and changes nothing else. -/
theorem exists_of_mem_locateAll {base : Path} {ts : Forest Item} {i : Item}
    (h : i ∈ valuesAll (locateAll base ts)) : ∃ j ∈ valuesAll ts, ∃ p, i = { j with path := p } := by
  induction ts using induct_forest generalizing base with
  | nil => cases h
  | cons j cs ts ihc ih =>
    rw [locateAll_cons, valuesAll_cons] at h
    rw [valuesAll_cons]
    rcases List.mem_cons.1 h with rfl | h
    · exact ⟨j, List.mem_cons_self .., _, rfl⟩
    · rcases List.mem_append.1 h with h | h
      · obtain ⟨k, hk, hp⟩ := ihc h
        exact ⟨k, List.mem_cons_of_mem _ (List.mem_append_left _ hk), hp⟩
      · obtain ⟨k, hk, hp⟩ := ih h
        exact ⟨k, List.mem_cons_of_mem _ (List.mem_append_right _ hk), hp⟩

/-- Nothing has happened yet on the items of an outline made from symbols. -/
theorem fresh_of_mem_ofSymbols {hidden : List Kind} {symbols : Forest Symbol} {i : Item}
    (h : i ∈ (ofSymbols hidden symbols).items) :
    ∃ key detail range selection p, i = { Item.fresh key detail range selection with path := p } := by
  obtain ⟨j, hj, p, rfl⟩ := exists_of_mem_locateAll h
  obtain ⟨key, detail, range, selection, rfl⟩ :=
    fresh_of_mem_visible ((perm_nest _).mem_iff.1 hj)
  exact ⟨key, detail, range, selection, p, rfl⟩

end SymbolOutline.Outline
