import Mathlib.Data.Set.Basic
import Mathlib.Tactic.Tauto
import SymbolOutline.Proofs.Folds
import SymbolOutline.Proofs.Insertion
import SymbolOutline.Proofs.WorkingSets

/-
What visible lines leave expanded. The tracker collapses what it remembers to have expanded, and it forgets
everything when another outline comes; but expansion is lent to that outline. So what survives a rebuild expanded
stays so until visible lines have been around it once more (`expanded_viewportChanged`).

Which entries these are is worked out along the run, beside the session (`leftOpen`). The items that are expanded
are at all times those that the tracker remembers and those that are left open (`Opened`).
-/

namespace SymbolOutline

open Forest Rose Outline

/-! ## Items that are expanded -/

namespace Outline

/-- The items that are expanded are those with paths in either of two sets, which have none in common. -/
structure Opened (ps : PathSet) (left : Set Path) (o : Outline) : Prop where
  expanded : ∀ i ∈ o.items, i.expanded = true ↔ i.path ∈ ps ∨ i.path ∈ left
  apart : ∀ p ∈ left, p ∉ ps

namespace Opened

variable {ps : PathSet} {left : Set Path} {o o' : Outline}

/-- Where items are expanded as before, nothing changes. -/
theorem of_untally (h : Opened ps left o) (hu : o'.untally = o.untally) : Opened ps left o' := by
  refine ⟨fun i hi => ?_, h.apart⟩
  have hmem : i.untally ∈ items o.untally := by
    rw [← hu, untally, items_mapAll]
    exact List.mem_map_of_mem hi
  rw [untally, items_mapAll] at hmem
  obtain ⟨j, hj, hji⟩ := List.mem_map.1 hmem
  have hpath : j.untally.path = i.untally.path := by rw [hji]
  have hexpanded : j.untally.expanded = i.untally.expanded := by rw [hji]
  rw [show i.path = j.path from hpath.symm, show i.expanded = j.expanded from hexpanded.symm]
  exact h.expanded j hj

theorem shift_other (h : Opened ps left o) {s : Switch} (hs : s.Lawful)
    (hget : ∀ on i, (s.set on i).expanded = i.expanded) (ho : o.WellKeyed) (before after : PathSet) :
    Opened ps left (shift s before after o).1 := by
  refine ⟨fun i hi => ?_, h.apart⟩
  obtain ⟨j, hj, on, rfl⟩ := exists_of_mem_shift hs ho hi
  rw [hget, hs.path]
  exact h.expanded j hj

/-- What comes into the first set is no longer left open. -/
theorem shift (h : Opened ps left o) (ho : o.WellKeyed) (after : PathSet) :
    Opened after (left \ {p | p ∈ after}) (shift .expanded ps after o).1 := by
  refine ⟨fun i hi => ?_, fun p hp => hp.2⟩
  rw [shift_eq lawful_expanded ho, items_mapAll] at hi
  obtain ⟨j, hj, rfl⟩ := List.mem_map.1 hi
  have hopen := h.expanded j hj
  by_cases hb : j.path ∈ ps <;> by_cases ha : j.path ∈ after
  · simp [hb, ha, hopen]
  · have hleft : j.path ∉ left := fun hl => h.apart _ hl hb
    simp [hb, ha, hleft, Switch.expanded]
  · simp [hb, ha, Switch.expanded]
  · simp [hb, ha, hopen]

theorem focus {t : Tracker} (h : Opened t.expanded left o) (ho : o.WellKeyed) (cursors : List Span) :
    Opened (t.focus o cursors).1.expanded left (t.focus o cursors).2.1 := by
  rcases t.focus_cases o cursors with ⟨-, hs⟩ | ⟨-, hs⟩
  · rw [hs]
    exact h
  · rw [hs]
    exact h.shift_other lawful_focused (fun _ _ => rfl) ho _ _

/-- While something is pinned, nothing is expanded or collapsed. -/
theorem view_pinned {t : Tracker} (h : Opened t.expanded left o) (ho : o.WellKeyed)
    (hpin : t.pin ≠ .unpinned) (visible : Span) :
    Opened (t.view o visible).1.expanded left (t.view o visible).2.1 := by
  rcases t.view_cases o visible with ⟨-, hs⟩ | ⟨-, -, hs⟩ | ⟨hp, -⟩
  · rw [hs]
    exact h
  · rw [hs]
    exact h.shift_other lawful_inView (fun _ _ => rfl) ho _ _
  · exact absurd hp hpin

/-- Else what the visible lines are around is expanded, and of the rest what is left open. -/
theorem view {t : Tracker} (h : Opened t.expanded left o) (ho : o.WellKeyed) (hpin : t.pin = .unpinned)
    (visible : Span) :
    (t.view o visible).1.expanded = o.aroundLines (linesOf visible) ∧
      Opened (o.aroundLines (linesOf visible)) (left \ {p | p ∈ o.aroundLines (linesOf visible)})
        (t.view o visible).2.1 := by
  rcases t.view_cases o visible with ⟨hp, -⟩ | ⟨-, hp, -⟩ | ⟨-, hs⟩
  · rw [hpin] at hp
    cases hp
  · exact absurd hpin hp
  · have hunlit := (retouched_shift shows_inView t.inView (o.onLines (linesOf visible)) o).unlit
    rw [hs]
    exact ⟨rfl, (h.shift_other lawful_inView (fun _ _ => rfl) ho _ _).shift (ho.of_unlit hunlit) _⟩

end Opened

/-- Of the items of a new outline, all collapsed, those are expanded in the end that survive and were expanded in
the old one. -/
theorem opened_lendExpansion {old new : Outline} (ho : Distinct old) (hn : new.WellKeyed)
    (hz : ∀ i ∈ new.items, i.expanded = false) :
    Opened ∅ {p | ∃ i, old.item? p = some i ∧ i.expanded = true ∧ Survives old new p}
      (lendExpansion (old.changesTo new).expansion new) := by
  refine ⟨fun j hj => ?_, fun p _ => PathSet.not_mem_empty p⟩
  rw [lendExpansion_eq hn, items_mapAll] at hj
  obtain ⟨n, hmem, rfl⟩ := List.mem_map.1 hj
  have hkept := mem_kept_changesTo ho hn n.path
  have hsame : ∀ c, (n.path, c) ∈ (old.changesTo new).kept →
      c = (old.item? n.path).any Item.expanded := by
    intro c hc
    obtain ⟨-, i, hi, rfl⟩ := (hkept c).1 hc
    rw [hi]
    rfl
  have hlend := Item.expanded_lend hsame
  have hpath : (n.lend (old.changesTo new).kept).path = n.path := by
    obtain ⟨b, hb⟩ := Item.lend_eq (old.changesTo new).kept n
    rw [hb]
  rw [hz n hmem] at hlend
  rw [Delta.expansion, Expansion.lend_ofEntries, hpath, hlend]
  constructor
  · intro h
    obtain ⟨hmem, hany⟩ : (n.path, (old.item? n.path).any Item.expanded) ∈ (old.changesTo new).kept ∧
        (old.item? n.path).any Item.expanded = true := by
      split_ifs at h with hmem
      exact ⟨hmem, h⟩
    obtain ⟨hs, i, hi, hb⟩ := (hkept _).1 hmem
    exact .inr ⟨i, hi, hb.trans hany, hs⟩
  · rintro (hp | ⟨i, hi, hexpanded, hs⟩)
    · exact absurd hp (PathSet.not_mem_empty n.path)
    · have hany : (old.item? n.path).any Item.expanded = true := by
        rw [hi]
        exact hexpanded
      rw [hany, if_pos ((hkept true).2 ⟨hs, i, hi, hexpanded⟩)]

end Outline

/-! ## Sessions -/

namespace Session

variable {s s' : Session} {left : Set Path}

/-- What an event makes of the entries that are left open. When an outline takes the place of another, these are
the ones that were expanded and survive; visible lines take out what they are around. -/
def leftOpen (s : Session) (left : Set Path) : Event → Set Path
  | .updateDocument document => {p | document.any Document.isSupported = true ∧ p ∈ left}
  | .completeRebuild t symbols text =>
    {p | s.IsCurrent t ∧ (∃ old i, s.outline = some old ∧ old.item? p = some i ∧ i.expanded = true ∧
        Survives old (s.outlineOf symbols text) p) ∨
      ¬ s.IsCurrent t ∧ p ∈ left}
  | .viewportChanged visible =>
    {p | p ∈ left ∧ (s.tracker.pin = .unpinned → ∀ o, s.outline = some o →
      p ∉ o.aroundLines (linesOf visible))}
  | .clear _ => ∅
  | _ => left

/-- The entries that are left open after a run. -/
def leftOpenAfter (s : Session) (left : Set Path) : List Event → Set Path
  | [] => left
  | e :: es => (s.step e).2.leftOpenAfter (s.leftOpen left e) es

/-- The items that are expanded are those that the tracker remembers and those that are left open. -/
def Opened (s : Session) (left : Set Path) : Prop :=
  ∀ o, s.outline = some o → Outline.Opened s.tracker.expanded left o

theorem opened_viewportChanged (hk : s.Keyed) (h : s.Opened left) (visible : Span) :
    Opened (s.viewportChanged visible).2 (s.leftOpen left (.viewportChanged visible)) := by
  rcases s.follows_viewportChanged visible with ⟨hnone, hs⟩ | ⟨o, inboxes, ho, -, hs⟩
  · rw [hs]
    intro o ho
    cases hnone.symm.trans ho
  · rw [hs]
    rintro _ ⟨⟩
    obtain ⟨hwell, -⟩ := hk o ho
    by_cases hpin : s.tracker.pin = .unpinned
    · have hleft : s.leftOpen left (.viewportChanged visible) =
          left \ {p | p ∈ o.aroundLines (linesOf visible)} := by
        ext p
        simp [leftOpen, hpin, ho]
      obtain ⟨hset, hopen⟩ := (h o ho).view hwell hpin visible
      rw [hleft, hset]
      exact hopen
    · have hleft : s.leftOpen left (.viewportChanged visible) = left := by
        ext p
        simp [leftOpen, hpin]
      rw [hleft]
      exact (h o ho).view_pinned hwell hpin visible

/-- When another outline comes, nothing is remembered, and what survives expanded is left open. -/
theorem opened_completeRebuild (hk : s.Keyed) (h : s.Opened left) {t : Ticket}
    {symbols : Forest Symbol} {text : Option TextLines}
    (hd : s.IsCurrent t → Distinct (s.outlineOf symbols text)) :
    Opened (s.completeRebuild t symbols text).2 (s.leftOpen left (.completeRebuild t symbols text)) := by
  rcases s.completeRebuild_cases t symbols text with ⟨hc, hs⟩ | ⟨-, -, hs⟩ | ⟨hc, hne, hs⟩
  · have hleft : s.leftOpen left (.completeRebuild t symbols text) = left := by
      ext p
      simp [leftOpen, hc]
    rw [hs, hleft]
    exact h
  · rw [hs]
    exact fun o ho => by cases ho
  · have hwell : WellKeyed (s.outlineOf symbols text) := ⟨hd hc, located_ofForest _⟩
    have hfresh : ∀ i ∈ Outline.items (s.outlineOf symbols text), i.expanded = false := by
      intro i hi
      obtain ⟨key, detail, range, selection, p, rfl⟩ := fresh_of_mem_ofSymbols hi
      rfl
    obtain ⟨shelf, inboxes, hinstall⟩ := install_spec { s with marks := s.scan text } t.document
      (s.outlineOf symbols text)
    rw [hs, hinstall]
    rintro _ ⟨⟩
    -- diagnostics do not expand or collapse anything
    refine .of_untally ?_ (Badges.untally_apply .none _ _)
    unfold lent
    cases ho : s.outline with
    | none =>
      have hleft : s.leftOpen left (.completeRebuild t symbols text) = ∅ := by
        ext p
        simp [leftOpen, hc, ho]
      rw [hleft]
      refine ⟨fun i hi => ?_, fun p hp => hp.elim⟩
      rw [hfresh i hi]
      exact iff_of_false Bool.false_ne_true (by rintro (hp | hp); exacts [PathSet.not_mem_empty _ hp, hp])
    | some old =>
      have hleft : s.leftOpen left (.completeRebuild t symbols text) = {p | ∃ i, old.item? p = some i ∧
          i.expanded = true ∧ Survives old (s.outlineOf symbols text) p} := by
        ext p
        simp [leftOpen, hc, ho]
      rw [hleft]
      exact opened_lendExpansion (hk old ho).1.distinct hwell hfresh

theorem opened_step (hk : s.Keyed) (h : s.Opened left) {e : Event} (hu : s.Unambiguous e) :
    (s.step e).2.Opened (s.leftOpen left e) := by
  cases e with
  | updateDocument document =>
    rcases s.updateDocument_cases document with ⟨-, reason, hs⟩ | ⟨d, rfl, hd, hs⟩
    · rw [hs]
      exact fun o ho => by cases ho
    · rw [hs]
      intro o ho
      simpa [leftOpen, hd] using h o ho
  | completeRebuild t symbols text => exact opened_completeRebuild hk h hu
  | selectionChanged cursors =>
    rcases s.follows_selectionChanged cursors with ⟨-, hs⟩ | ⟨o, inboxes, ho, -, hs⟩
    · rw [step, hs]
      exact h
    · rw [step, hs]
      rintro _ ⟨⟩
      exact (h o ho).focus (hk o ho).1 cursors
  | viewportChanged visible => exact opened_viewportChanged hk h visible
  | diagnosticsChanged d ds =>
    rcases s.diagnosticsChanged_cases d ds with ⟨-, hs⟩ | ⟨o, inboxes, ho, -, -, hs⟩
    · rw [step, hs]
      exact h
    · rw [step, hs]
      rintro _ ⟨⟩
      exact (h o ho).of_untally (s.badges.untally_apply o ds)
  | setPin pin => exact h
  | clear reason => exact fun o ho => by cases ho
  | changeDepth delta => exact h
  | attachView => exact h

theorem opened_run {v : View} (hv : InSync s v) (h : s.Opened left) {es : List Event}
    (hu : s.AllUnambiguous es) :
    (s.run es).2.Opened (s.leftOpenAfter left es) ∧ (s.run es).2.Keyed := by
  induction es generalizing s v left with
  | nil => exact ⟨h, hv.keyed⟩
  | cons e es ih => exact ih (inSync_step hv hu.1) (opened_step hv.keyed h hu.1) hu.2

/-- Right after other lines come into view while nothing is pinned, the entries that are expanded are those
that the lines are around and those that are left open. So they are only the former exactly if the lines are around
all that is left open. -/
theorem expanded_viewportChanged (h : s.Fresh) {es : List Event} (hu : s.AllUnambiguous es)
    (hpin : (s.run es).2.tracker.pin = .unpinned) {visible : Span} {o : Outline}
    (ho : ((s.run es).2.viewportChanged visible).2.outline = some o) :
    let around := o.aroundLines (linesOf visible)
    let left := s.leftOpenAfter ∅ es
    (∀ i ∈ o.items, i.expanded = true ↔ i.path ∈ around ∨ i.path ∈ left) ∧
      ((∀ i ∈ o.items, i.expanded = true ↔ i.path ∈ around) ↔
        ∀ i ∈ o.items, i.path ∈ left → i.path ∈ around) := by
  intro around left
  have hempty : s.Opened ∅ := fun o ho => by cases h.empty.1.symm.trans ho
  obtain ⟨hopen, hkeyed⟩ := opened_run (h.inSync none) hempty hu
  have hexpanded : ∀ i ∈ o.items, i.expanded = true ↔ i.path ∈ around ∨ i.path ∈ left := by
    rcases (s.run es).2.follows_viewportChanged visible with ⟨hnone, hs⟩ | ⟨old, inboxes, hold, -, hs⟩
    · rw [hs, hnone] at ho
      cases ho
    · rw [hs] at ho
      obtain rfl := Option.some.inj ho
      have hunlit := ((s.run es).2.tracker.retouched_view old visible).unlit
      have haround : around = old.aroundLines (linesOf visible) :=
        eq_of_unlit (aroundLines · _) (aroundLines_unlit · _) hunlit
      obtain ⟨-, hview⟩ := (hopen old hold).view (hkeyed old hold).1 hpin visible
      intro i hi
      rw [hview.expanded i hi, haround]
      simp only [Set.mem_sdiff, Set.mem_ofPred_eq]
      tauto
  refine ⟨hexpanded, fun hall i hi hl => (hall i hi).1 ((hexpanded i hi).2 (.inr hl)), fun hl i hi => ?_⟩
  rw [hexpanded i hi]
  exact ⟨fun hp => hp.elim id (hl i hi), .inl⟩

/-- A class is scrolled out of view before another outline comes, and a function is not. -/
theorem expanded_viewportChanged_rebuilt :
    let leaf (kind : Kind) (name : String) (first last : Nat) : Rose Symbol :=
      node ⟨⟨kind, name⟩, none, .ofLines first last, .ofLines first first⟩ []
    let d : Document := ⟨"file:a"⟩
    let symbols := [leaf .classType "A" 0 9, leaf .function "f" 12 20, leaf .function "g" 40 50]
    let es : List Event := [
      .updateDocument (some d),
      .completeRebuild ⟨d, 1⟩ symbols none,
      .viewportChanged (.ofLines 0 9),
      .viewportChanged (.ofLines 10 20),
      .updateDocument (some d),
      .completeRebuild ⟨d, 2⟩ symbols none]
    let around := fun o : Outline => o.aroundLines (linesOf (.ofLines 40 45))
    let left := standard.leftOpenAfter ∅ es
    standard.Fresh ∧ standard.AllUnambiguous es ∧ (standard.run es).2.tracker.pin = .unpinned ∧
      ∃ o, ((standard.run es).2.viewportChanged (.ofLines 40 45)).2.outline = some o ∧
        (∀ i ∈ o.items, i.expanded = true ↔ i.path ∈ around o ∨ i.path ∈ left) ∧
        ((∀ i ∈ o.items, i.expanded = true ↔ i.path ∈ around o) ↔
          ∀ i ∈ o.items, i.path ∈ left → i.path ∈ around o) := by
  intro leaf d symbols es around left
  have hu : standard.AllUnambiguous es := by
    refine .of_forall fun t symbols text h => ?_
    simp only [es, List.mem_cons, Event.completeRebuild.injEq, reduceCtorEq, List.not_mem_nil,
      false_or, or_false] at h
    rcases h with ⟨-, rfl, rfl⟩ | ⟨-, rfl, rfl⟩ <;> rw [outlineOf, ofSymbols_eq_inserted] <;> decide +kernel
  have hpin : (standard.run es).2.tracker.pin = .unpinned := by
    simp only [es, run, step, completeRebuild, ofSymbols_eq_inserted]
    decide +kernel
  have hsome : ((standard.run es).2.viewportChanged (.ofLines 40 45)).2.outline.isSome = true := by
    simp only [es, run, step, completeRebuild, ofSymbols_eq_inserted]
    decide +kernel
  obtain ⟨o, ho⟩ := Option.isSome_iff_exists.1 hsome
  exact ⟨fresh_standard, hu, hpin, o, ho, expanded_viewportChanged fresh_standard hu hpin ho⟩

/-- A function is expanded when another outline comes with the same function. Then it is scrolled out of view,
and stays expanded. -/
theorem expanded_viewportChanged_stuck :
    let d : Document := ⟨"file:a"⟩
    let symbols : Forest Symbol := [node ⟨⟨.function, "f"⟩, none, .ofLines 0 1, .ofLines 0 0⟩ []]
    let es : List Event := [
      .updateDocument (some d),
      .completeRebuild ⟨d, 1⟩ symbols none,
      .viewportChanged (.ofLines 0 9),
      .updateDocument (some d),
      .completeRebuild ⟨d, 2⟩ symbols none]
    let s := (standard.run es).2
    let s' := (s.viewportChanged (.ofLines 20 29)).2
    standard.Fresh ∧ Distinct (standard.outlineOf symbols none) ∧ s.tracker.pin = .unpinned ∧
      s'.outline.map (fun o => o.items.map Item.expanded) = some [true] ∧
      s'.outline.map (fun o => (o.search (linesOf (.ofLines 20 29))).inRange) = some [] ∧
      s'.outline.map (fun o => (o.search (linesOf (.ofLines 20 29))).overlapping) = some [] := by
  intro d symbols es s s'
  have hd : d.isSupported = true := by decide
  refine ⟨fresh_standard, by decide +kernel, ?_, ?_, ?_, ?_⟩
  all_goals simp only [s', s, es, run, updateDocument_of_isSupported _ hd]
  all_goals decide +kernel

end Session

end SymbolOutline
