import SymbolOutline.Proofs.View
import SymbolOutline.Tracker

/-
What following the editor does to an outline. It switches focus, view and expansion of items and
changes nothing else, and the changes it reports do to the rows what it does to the items
(`Retouched`). Neither depends on whether siblings have different keys.
-/

namespace SymbolOutline

open Forest Rose

namespace Outline

theorem WellKeyed.of_unlit {o o' : Outline} (ho : o.WellKeyed) (h : o'.unlit = o.unlit) :
    o'.WellKeyed := by
  have hk : ∀ i : Item, i.unlit.key = i.key := fun _ => rfl
  have hp : ∀ i : Item, i.unlit.path = i.path := fun _ => rfl
  have hu : WellKeyed o'.unlit := h ▸ ho.mapAll hk hp
  exact ⟨(distinct_mapAll hk).1 hu.distinct, (located_mapAll hk hp).1 hu.located⟩

/-- One outline differs from another in what is expanded, in view and in focus, and the changes do
to the rows of the one what makes them the rows of the other. -/
structure Retouched (o o' : Outline) (cs : List Change) : Prop where
  unlit : o'.unlit = o.unlit
  rows : cs.foldl View.applyTo (rows o) = SymbolOutline.rows o'

namespace Retouched

variable {o o' o'' : Outline} {cs ds : List Change}

theorem refl (o : Outline) : Retouched o o [] := ⟨rfl, rfl⟩

theorem trans (h : Retouched o o' cs) (h' : Retouched o' o'' ds) : Retouched o o'' (cs ++ ds) :=
  ⟨h'.unlit.trans h.unlit, by rw [List.foldl_append, h.rows, h'.rows]⟩

theorem wellKeyed (h : Retouched o o' cs) (ho : o.WellKeyed) : o'.WellKeyed := ho.of_unlit h.unlit

end Retouched

/-! ## Switches -/

/-- Turning a switch of an item shows in the property of its row, and nowhere else. -/
structure Switch.Shows (s : Switch) : Prop where
  row : ∀ on i, (s.set on i).row = i.row.set s.property (.flag on)
  unlit : ∀ on i, (s.set on i).unlit = i.unlit

theorem shows_focused : Switch.focused.Shows := ⟨fun _ _ => rfl, fun _ _ => rfl⟩

theorem shows_inView : Switch.inView.Shows := ⟨fun _ _ => rfl, fun _ _ => rfl⟩

theorem shows_expanded : Switch.expanded.Shows := ⟨fun _ _ => rfl, fun _ _ => rfl⟩

variable {s : Switch}

theorem retouched_turn (hs : s.Shows) (on : Bool) (p : Path) (o : Outline) :
    Retouched o (turn s on p o).1 (turn s on p o).2 := by
  unfold turn
  cases o.item? p with
  | none => exact .refl o
  | some i =>
    simp only
    split
    · exact .refl o
    · exact ⟨mapAll_modify (hs.unlit on) p o, (rows_modifyItem (hs.row on) p o).symm⟩

theorem retouched_turnAll (hs : s.Shows) (on : Bool) (ps : List Path) (o : Outline) :
    Retouched o (turnAll s on ps o).1 (turnAll s on ps o).2 := by
  induction ps generalizing o with
  | nil => exact .refl o
  | cons p ps ih => exact (retouched_turn hs on p o).trans (ih _)

theorem retouched_shift (hs : s.Shows) (before after : PathSet) (o : Outline) :
    Retouched o (shift s before after o).1 (shift s before after o).2 :=
  (retouched_turnAll hs false _ o).trans (retouched_turnAll hs true _ _)

end Outline

/-! ## Cursors and visible lines -/

namespace Tracker

open Outline

theorem retouched_focus (t : Tracker) (o : Outline) (cursors : List Span) :
    Retouched o (t.focus o cursors).2.1 (t.focus o cursors).2.2 := by
  unfold focus
  simp only
  split
  · exact .refl o
  · exact retouched_shift shows_focused _ _ o

theorem retouched_view (t : Tracker) (o : Outline) (visible : Span) :
    Retouched o (t.view o visible).2.1 (t.view o visible).2.2 := by
  unfold view
  simp only
  split
  · exact .refl o
  · have seen := retouched_shift shows_inView t.inView
      (PathSet.ofList ((o.search (linesOf visible)).inRange.map Item.path)) o
    split
    · exact seen.trans (retouched_shift shows_expanded _ _ _)
    · exact seen

end Tracker

end SymbolOutline
