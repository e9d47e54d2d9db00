import SymbolOutline.Proofs.Replay
import SymbolOutline.Proofs.Switches

/-
Following the editor leaves no traces (`timeless_follow`). However cursors, visible lines and the pin
came and went, what the next call makes of the outline is what a new tracker makes of the outline as
it was at first.

A run keeps each set of the tracker equal to what is switched on in the outline, and the items in
focus are those of the cursors that the tracker remembers (`Kept`). Where a query's findings come in
is on ranges and paths alone, which no run changes.
-/

namespace SymbolOutline

open Forest Rose

namespace Outline

/-- The paths of the items that cursors on some lines put in focus. -/
def inFocus (o : Outline) (cursors : List Lines) : PathSet :=
  PathSet.ofList ((cursors.flatMap o.underCursor).map Item.path)

/-- The paths of the items that start within some lines, or surround them. -/
def onLines (o : Outline) (q : Lines) : PathSet :=
  PathSet.ofList ((o.search q).inRange.map Item.path)

/-- The paths of the items that some lines expand: those on the lines, and those that reach there. -/
def aroundLines (o : Outline) (q : Lines) : PathSet :=
  (o.onLines q).insertAll ((o.search q).overlapping.map Item.path)

theorem inFocus_unlit (o : Outline) (cursors : List Lines) :
    o.unlit.inFocus cursors = o.inFocus cursors := by
  have hpaths : ∀ q, (underCursor o.unlit q).map Item.path = (o.underCursor q).map Item.path := by
    intro q
    rw [Outline.unlit, underCursor_mapAll (f := Item.unlit) fun _ => rfl, List.map_map]
    rfl
  unfold inFocus
  simp only [List.map_flatMap, hpaths]

theorem onLines_unlit (o : Outline) (q : Lines) : o.unlit.onLines q = o.onLines q := by
  unfold onLines
  rw [Outline.unlit, search_mapAll (f := Item.unlit) fun _ => rfl, Findings.map, List.map_map]
  rfl

theorem aroundLines_unlit (o : Outline) (q : Lines) : o.unlit.aroundLines q = o.aroundLines q := by
  unfold aroundLines
  rw [onLines_unlit, Outline.unlit, search_mapAll (f := Item.unlit) fun _ => rfl, Findings.map, List.map_map]
  rfl

/-- What does not depend on expansion, view and focus is the same of outlines that differ in these
only. -/
theorem eq_of_unlit {α : Type} {o o' : Outline} (F : Outline → α) (hF : ∀ o : Outline, F o.unlit = F o)
    (h : o'.unlit = o.unlit) : F o' = F o := by
  rw [← hF o', h, hF]

theorem mapAll_unlit {α : Type} {g : Item → α} (hg : ∀ i : Item, g i.unlit = g i) (o : Outline) :
    mapAll g o.unlit = mapAll g o := by
  rw [Outline.unlit, mapAll_mapAll]
  exact mapAll_congr fun i _ => hg i

end Outline

namespace Tracker

open Outline

/-! ## What each operation does -/

theorem focus_cases (t : Tracker) (o : Outline) (cursors : List Span) :
    (t.pin = .frozen ∨ cursors.map linesOf = t.cursors) ∧ t.focus o cursors = (t, o, []) ∨
      t.pin ≠ .frozen ∧ t.focus o cursors =
        ({ t with focused := o.inFocus (cursors.map linesOf), cursors := cursors.map linesOf },
          shift .focused t.focused (o.inFocus (cursors.map linesOf)) o) := by
  by_cases h : t.pin = .frozen ∨ cursors.map linesOf = t.cursors
  · exact .inl ⟨h, if_pos h⟩
  · exact .inr ⟨fun hpin => h (.inl hpin), if_neg h⟩

theorem view_cases (t : Tracker) (o : Outline) (visible : Span) :
    t.pin = .frozen ∧ t.view o visible = (t, o, []) ∨
      t.pin ≠ .frozen ∧ t.pin ≠ .unpinned ∧ t.view o visible =
        ({ t with inView := o.onLines (linesOf visible) },
          shift .inView t.inView (o.onLines (linesOf visible)) o) ∨
      t.pin = .unpinned ∧
        let seen := shift .inView t.inView (o.onLines (linesOf visible)) o
        let opened := shift .expanded t.expanded (o.aroundLines (linesOf visible)) seen.1
        t.view o visible =
          ({ t with
              inView := o.onLines (linesOf visible), expanded := o.aroundLines (linesOf visible) },
            opened.1, seen.2 ++ opened.2) := by
  by_cases hf : t.pin = .frozen
  · exact .inl ⟨hf, if_pos hf⟩
  · by_cases hu : t.pin = .unpinned
    · exact .inr (.inr ⟨hu, (if_neg hf).trans (if_pos hu)⟩)
    · exact .inr (.inl ⟨hf, hu, (if_neg hf).trans (if_neg hu)⟩)

/-! ## Runs of calls -/

/-- What a tracker is told. -/
inductive Call where
  | focus (cursors : List Span)
  | view (visible : Span)
  | setPin (pin : Pin)

/-- What a call makes of a tracker and an outline, and the changes it reports. -/
def call (t : Tracker) (o : Outline) : Call → Tracker × Outline × List Change
  | .focus cursors => t.focus o cursors
  | .view visible => t.view o visible
  | .setPin pin => (t.setPin pin, o, [])

/-- What calls make of a tracker and an outline, and the changes they report. -/
def follow (t : Tracker) (o : Outline) : List Call → Tracker × Outline × List Change
  | [] => (t, o, [])
  | c :: cs =>
    let (t, o, now) := t.call o c
    let (t, o, later) := t.follow o cs
    (t, o, now ++ later)

/-- A tracker and an outline `o'` that it has made of `o`. -/
structure Kept (o : Outline) (t : Tracker) (o' : Outline) : Prop where
  unlit : o'.unlit = o.unlit
  focused : Marked .focused t.focused o'
  inView : Marked .inView t.inView o'
  expanded : Marked .expanded t.expanded o'
  cursors : t.focused = o.inFocus t.cursors

variable {o o' : Outline} {t : Tracker}

theorem marked_empty {s : Switch} (h : ∀ i : Item, s.get i.unlit = false) (hl : o.unlit = o) :
    Marked s ∅ o := by
  intro i hi
  rw [← hl, Outline.unlit, items_mapAll] at hi
  obtain ⟨j, -, rfl⟩ := List.mem_map.1 hi
  simp [h]

/-- Nothing is in focus, in view or expanded at first. -/
theorem kept_new (hl : o.unlit = o) : Kept o new o where
  unlit := rfl
  focused := marked_empty (fun _ => rfl) hl
  inView := marked_empty (fun _ => rfl) hl
  expanded := marked_empty (fun _ => rfl) hl
  cursors := rfl

namespace Kept

section

variable (h : Kept o t o')
include h

theorem inFocus_eq (cursors : List Lines) : o'.inFocus cursors = o.inFocus cursors :=
  eq_of_unlit (inFocus · cursors) (inFocus_unlit · cursors) h.unlit

theorem onLines_eq (q : Lines) : o'.onLines q = o.onLines q :=
  eq_of_unlit (onLines · q) (onLines_unlit · q) h.unlit

theorem aroundLines_eq (q : Lines) : o'.aroundLines q = o.aroundLines q :=
  eq_of_unlit (aroundLines · q) (aroundLines_unlit · q) h.unlit

/-- A call about cursors leaves in focus what they put there, also where it finds their lines to be
those of before and does nothing. -/
theorem focus_eq (ho : o.WellKeyed) (hpin : t.pin ≠ .frozen) (cursors : List Span) :
    (t.focus o' cursors).1.focused = o.inFocus (cursors.map linesOf) ∧
      (t.focus o' cursors).2.1 =
        mapAll (fun i => { i with focused := decide (i.path ∈ o.inFocus (cursors.map linesOf)) })
          o' := by
  rw [← h.inFocus_eq]
  rcases t.focus_cases o' cursors with ⟨hfrozen | hlines, hs⟩ | ⟨-, hs⟩
  · exact absurd hfrozen hpin
  · have hfocused : t.focused = o'.inFocus (cursors.map linesOf) := by
      rw [hlines, h.inFocus_eq, h.cursors]
    rw [hs, ← hfocused]
    exact ⟨rfl, (h.focused.set_eq_self lawful_focused).symm⟩
  · rw [hs]
    exact ⟨rfl, shift_eq_mapAll lawful_focused (ho.of_unlit h.unlit) h.focused _⟩

/-- A call about visible lines leaves in view what is on them, and expanded what is around them unless
something is pinned. -/
theorem view_eq (ho : o.WellKeyed) (hpin : t.pin ≠ .frozen) (visible : Span) :
    ((t.view o' visible).1.inView = o.onLines (linesOf visible) ∧
      mapAll Item.inView (t.view o' visible).2.1 =
        mapAll (fun i => decide (i.path ∈ o.onLines (linesOf visible))) o') ∧
    (t.pin = .unpinned → (t.view o' visible).1.expanded = o.aroundLines (linesOf visible) ∧
      mapAll Item.expanded (t.view o' visible).2.1 =
        mapAll (fun i => decide (i.path ∈ o.aroundLines (linesOf visible))) o') := by
  have hwell := ho.of_unlit h.unlit
  have hseen := shift_eq_mapAll lawful_inView hwell h.inView (o'.onLines (linesOf visible))
  rw [← h.onLines_eq, ← h.aroundLines_eq]
  rcases t.view_cases o' visible with ⟨hfrozen, -⟩ | ⟨-, hpinned, hs⟩ | ⟨-, hs⟩
  · exact absurd hfrozen hpin
  · rw [hs, hseen, mapAll_mapAll]
    exact ⟨⟨rfl, rfl⟩, fun hp => absurd hp hpinned⟩
  · -- what comes into view does not matter to what is expanded
    have hexpanded := h.expanded.shift_other lawful_inView (fun _ _ => rfl) hwell t.inView
      (o'.onLines (linesOf visible))
    have hretouched := retouched_shift shows_inView t.inView (o'.onLines (linesOf visible)) o'
    have hopened := shift_eq_mapAll lawful_expanded (hwell.of_unlit hretouched.unlit) hexpanded
      (o'.aroundLines (linesOf visible))
    rw [hs, hopened, hseen, mapAll_mapAll, mapAll_mapAll, mapAll_mapAll]
    exact ⟨⟨rfl, rfl⟩, fun _ => ⟨rfl, rfl⟩⟩

end

theorem focus (ho : o.WellKeyed) (h : Kept o t o') (cursors : List Span) :
    Kept o (t.focus o' cursors).1 (t.focus o' cursors).2.1 := by
  have hwell := ho.of_unlit h.unlit
  have hunlit := (retouched_focus t o' cursors).unlit.trans h.unlit
  rcases t.focus_cases o' cursors with ⟨-, hs⟩ | ⟨-, hs⟩
  · rw [hs]
    exact h
  · rw [hs] at hunlit ⊢
    exact ⟨hunlit, h.focused.shift lawful_focused hwell _,
      h.inView.shift_other lawful_focused (fun _ _ => rfl) hwell _ _,
      h.expanded.shift_other lawful_focused (fun _ _ => rfl) hwell _ _, h.inFocus_eq _⟩

theorem view (ho : o.WellKeyed) (h : Kept o t o') (visible : Span) :
    Kept o (t.view o' visible).1 (t.view o' visible).2.1 := by
  have hwell := ho.of_unlit h.unlit
  have hunlit := (retouched_view t o' visible).unlit.trans h.unlit
  -- the items in view come first, whatever the pin is
  have hfocused := h.focused.shift_other lawful_inView (fun _ _ => rfl) hwell t.inView
    (o'.onLines (linesOf visible))
  have hinView := h.inView.shift lawful_inView hwell (o'.onLines (linesOf visible))
  have hexpanded := h.expanded.shift_other lawful_inView (fun _ _ => rfl) hwell t.inView
    (o'.onLines (linesOf visible))
  rcases t.view_cases o' visible with ⟨-, hs⟩ | ⟨-, -, hs⟩ | ⟨-, hs⟩
  · rw [hs]
    exact h
  · rw [hs] at hunlit ⊢
    exact ⟨hunlit, hfocused, hinView, hexpanded, h.cursors⟩
  · have hseen := retouched_shift shows_inView t.inView (o'.onLines (linesOf visible)) o'
    have hwell' := hwell.of_unlit hseen.unlit
    rw [hs] at hunlit ⊢
    exact ⟨hunlit, hfocused.shift_other lawful_expanded (fun _ _ => rfl) hwell' _ _,
      hinView.shift_other lawful_expanded (fun _ _ => rfl) hwell' _ _,
      hexpanded.shift lawful_expanded hwell' _, h.cursors⟩

theorem call (ho : o.WellKeyed) (h : Kept o t o') (c : Call) :
    Kept o (t.call o' c).1 (t.call o' c).2.1 := by
  cases c with
  | focus cursors => exact h.focus ho cursors
  | view visible => exact h.view ho visible
  | setPin pin => exact ⟨h.unlit, h.focused, h.inView, h.expanded, h.cursors⟩

theorem follow (ho : o.WellKeyed) (h : Kept o t o') (cs : List Call) :
    Kept o (t.follow o' cs).1 (t.follow o' cs).2.1 := by
  induction cs generalizing t o' with
  | nil => exact h
  | cons c cs ih => exact ih (h.call ho c)

end Kept

/-! ## What a call reports -/

theorem toggles_call (t : Tracker) (o : Outline) (c : Call) :
    Toggles o (t.call o c).2.2 (t.call o c).2.1 := by
  cases c with
  | focus cursors =>
    rw [call]
    rcases t.focus_cases o cursors with ⟨-, hs⟩ | ⟨-, hs⟩ <;> rw [hs]
    · exact .nil o
    · exact toggles_shift (by simp) _ _ o
  | view visible =>
    have hseen := toggles_shift (s := .inView) (by simp) t.inView (o.onLines (linesOf visible)) o
    rw [call]
    rcases t.view_cases o visible with ⟨-, hs⟩ | ⟨-, -, hs⟩ | ⟨-, hs⟩ <;> rw [hs]
    · exact .nil o
    · exact hseen
    · exact hseen.trans (toggles_shift (by simp) _ _ _)
  | setPin pin => exact .nil o

theorem retouched_call (t : Tracker) (o : Outline) (c : Call) :
    Retouched o (t.call o c).2.1 (t.call o c).2.2 := by
  cases c with
  | focus cursors => exact retouched_focus t o cursors
  | view visible => exact retouched_view t o visible
  | setPin pin => exact .refl o

/-- Calls turn switches one after the other, and a display that is told of each shows the outline
that they leave. -/
theorem reports_follow (t : Tracker) (o : Outline) (cs : List Call) :
    Toggles o (t.follow o cs).2.2 (t.follow o cs).2.1 ∧
      Retouched o (t.follow o cs).2.1 (t.follow o cs).2.2 := by
  induction cs generalizing t o with
  | nil => exact ⟨.nil o, .refl o⟩
  | cons c cs ih =>
    obtain ⟨htoggles, hretouched⟩ := ih (t.call o c).1 (t.call o c).2.1
    exact ⟨(toggles_call t o c).trans htoggles, (retouched_call t o c).trans hretouched⟩

/-! ## No traces -/

/-- Whatever a tracker `t` has made of an outline `o` so far, which is `o'`: what a call makes of that
is what a new tracker makes of `o`. -/
structure Timeless (o : Outline) (t : Tracker) (o' : Outline) : Prop where
  /-- The items in focus are those of the cursors alone. -/
  focused : t.pin ≠ .frozen → ∀ cursors,
    (t.focus o' cursors).1.focused = (new.focus o cursors).1.focused ∧
    mapAll Item.focused (t.focus o' cursors).2.1 = mapAll Item.focused (new.focus o cursors).2.1
  /-- The items in view are those of the visible lines alone. -/
  inView : t.pin ≠ .frozen → ∀ visible,
    (t.view o' visible).1.inView = (new.view o visible).1.inView ∧
    mapAll Item.inView (t.view o' visible).2.1 = mapAll Item.inView (new.view o visible).2.1
  /-- While nothing is pinned, so are the items expanded. -/
  expanded : t.pin = .unpinned → ∀ visible,
    (t.view o' visible).1.expanded = (new.view o visible).1.expanded ∧
    mapAll Item.expanded (t.view o' visible).2.1 = mapAll Item.expanded (new.view o visible).2.1
  /-- While all is frozen, a call changes nothing but the pin. -/
  frozen : t.pin = .frozen → ∀ c,
    (t.call o' c).1.setPin .frozen = t ∧ (t.call o' c).2.1 = o' ∧ (t.call o' c).2.2 = []
  /-- Each report turns a switch to the other side. -/
  toggles : ∀ c, Toggles o' (t.call o' c).2.2 (t.call o' c).2.1
  /-- The reports keep a display up to date. -/
  shows : ∀ c, (View.ofForest o').applyAll (t.call o' c).2.2 = View.ofForest (t.call o' c).2.1

theorem Kept.timeless (ho : o.WellKeyed) (hl : o.unlit = o) (h : Kept o t o') : Timeless o t o' where
  focused := by
    intro hpin cursors
    obtain ⟨ht, ho'⟩ := h.focus_eq ho hpin cursors
    obtain ⟨htn, hon⟩ := (kept_new hl).focus_eq ho (by decide) cursors
    rw [ht, ho', htn, hon, mapAll_mapAll, mapAll_mapAll]
    exact ⟨rfl, eq_of_unlit _ (mapAll_unlit fun _ => rfl) h.unlit⟩
  inView := by
    intro hpin visible
    obtain ⟨⟨ht, ho'⟩, -⟩ := h.view_eq ho hpin visible
    obtain ⟨⟨htn, hon⟩, -⟩ := (kept_new hl).view_eq ho (by decide) visible
    rw [ht, ho', htn, hon]
    exact ⟨rfl, eq_of_unlit _ (mapAll_unlit fun _ => rfl) h.unlit⟩
  expanded := by
    intro hp visible
    obtain ⟨ht, ho'⟩ := (h.view_eq ho (by rw [hp]; decide) visible).2 hp
    obtain ⟨htn, hon⟩ := ((kept_new hl).view_eq ho (by decide) visible).2 rfl
    rw [ht, ho', htn, hon]
    exact ⟨rfl, eq_of_unlit _ (mapAll_unlit fun _ => rfl) h.unlit⟩
  frozen := by
    intro hpin c
    cases c with
    | focus cursors =>
      have hsame : t.call o' (.focus cursors) = (t, o', []) := if_pos (.inl hpin)
      rw [hsame, ← hpin]
      exact ⟨rfl, rfl, rfl⟩
    | view visible =>
      have hsame : t.call o' (.view visible) = (t, o', []) := if_pos hpin
      rw [hsame, ← hpin]
      exact ⟨rfl, rfl, rfl⟩
    | setPin pin => exact ⟨by rw [← hpin]; rfl, rfl, rfl⟩
  toggles := toggles_call t o'
  shows := by
    intro c
    have := (retouched_call t o' c).rows
    simp [View.ofForest, View.applyAll, this]

/-- Calls to a new tracker leave no traces. All that they report turns switches, and keeps a display
of the outline up to date. -/
theorem timeless_follow (ho : o.WellKeyed) (hl : o.unlit = o) (cs : List Call) :
    Timeless o (new.follow o cs).1 (new.follow o cs).2.1 ∧
      Toggles o (new.follow o cs).2.2 (new.follow o cs).2.1 ∧
      (View.ofForest o).applyAll (new.follow o cs).2.2 = View.ofForest (new.follow o cs).2.1 := by
  obtain ⟨htoggles, hretouched⟩ := reports_follow new o cs
  refine ⟨((kept_new hl).follow ho cs).timeless ho hl, htoggles, ?_⟩
  simp [View.ofForest, View.applyAll, hretouched.rows]

/-- Cursors and visible lines move on while a pin is set and taken off again; what was expanded
before the pin is still expanded, until lines come into view. -/
theorem timeless_follow_pinned :
    let leaf (name : String) (first last : Nat) : Rose Item :=
      node (.fresh ⟨.method, name⟩ "" (.ofLines first last) (.ofLines first first)) []
    let o : Outline := .ofForest [
      node (.fresh ⟨.classType, "A"⟩ "" (.ofLines 0 20) (.ofLines 0 0)) [leaf "m" 2 8, leaf "n" 12 18],
      leaf "f" 30 40]
    let cs : List Call := [
      .focus [.ofLines 4 4],
      .view (.ofLines 10 16),
      .setPin .pinned,
      .focus [.ofLines 14 14],
      .view (.ofLines 30 35),
      .setPin .unpinned]
    o.WellKeyed ∧ o.unlit = o ∧
      ((new.follow o cs).1.expanded.toList.length = 2 ∧ (new.follow o cs).2.2.length = 8) ∧
      Timeless o (new.follow o cs).1 (new.follow o cs).2.1 ∧
      Toggles o (new.follow o cs).2.2 (new.follow o cs).2.1 ∧
      (View.ofForest o).applyAll (new.follow o cs).2.2 = View.ofForest (new.follow o cs).2.1 := by
  intro leaf o cs
  have ho : o.WellKeyed := ⟨by decide +kernel, located_ofForest _⟩
  have hl : o.unlit = o := by decide +kernel
  exact ⟨ho, hl, by decide +kernel, timeless_follow ho hl cs⟩

end Tracker

end SymbolOutline
