import SymbolOutline.Proofs.Badges
import SymbolOutline.Proofs.Insertion
import SymbolOutline.Proofs.Nesting
import SymbolOutline.Proofs.Reconcile
import SymbolOutline.Proofs.Run
import SymbolOutline.Proofs.Tracker

/-
A display that carries out all messages of a session shows the session's outline, as long as
siblings have different keys in every outline that the session makes (`shows_run`). The invariant
is `InSync`: the rows are those of the outline, and every item with a tally is remembered.
-/

namespace SymbolOutline

open Forest Rose Outline

/-- A display shows an outline and nothing in its place, or no rows if there is no outline. -/
def View.Shows (v : View) : Option Outline → Prop
  | some o => v.roots = (View.ofForest o).roots ∧ v.placeholder = none
  | none => v.roots = []

namespace Session

/-- A display shows the outline of a session, in which siblings have different keys and every item
with a tally is remembered. -/
structure InSync (s : Session) (v : View) : Prop where
  shows : v.Shows s.outline
  keyed : ∀ o, s.outline = some o → o.WellKeyed ∧ s.badges.Counted o

variable {s s' : Session} {v v' : View}

namespace InSync

theorem of_none (ho : s.outline = none) (hv : v.roots = []) : InSync s v :=
  ⟨by rw [ho]; exact hv, fun o h => by rw [ho] at h; cases h⟩

theorem of_some {o : Outline} (ho : s.outline = some o) (hk : o.WellKeyed)
    (hc : s.badges.Counted o) (hr : v.roots = rows o) (hp : v.placeholder = none) : InSync s v := by
  refine ⟨by rw [ho]; exact ⟨hr, hp⟩, fun o' h => ?_⟩
  obtain rfl := Option.some.inj (ho.symm.trans h)
  exact ⟨hk, hc⟩

theorem rows_eq (h : InSync s v) {o : Outline} (ho : s.outline = some o) :
    v.roots = rows o ∧ v.placeholder = none := by
  have := h.shows
  rw [ho] at this
  exact this

/-- What is neither outline nor memory of tallies does not matter. -/
theorem congr (h : InSync s v) (ho : s'.outline = s.outline) (hb : s'.badges = s.badges)
    (hr : v'.roots = v.roots) (hp : v'.placeholder = v.placeholder) : InSync s' v' := by
  cases hs : s.outline with
  | none =>
    have := h.shows
    rw [hs] at this
    exact .of_none (ho.trans hs) (hr.trans this)
  | some o =>
    obtain ⟨hk, hc⟩ := h.keyed o hs
    obtain ⟨hro, hpo⟩ := h.rows_eq hs
    exact .of_some (ho.trans hs) hk (hb ▸ hc) (hr.trans hro) (hp.trans hpo)

end InSync

/-! ## One event -/

/-- Changes that turn the rows of one outline into those of another are sent. -/
theorem inSync_sent {o o' : Outline} (h : InSync s v) (ho : s.outline = some o)
    (ho' : s'.outline = some o') (hk : o'.WellKeyed) (hc : s'.badges.Counted o') {cs : List Change}
    (hcs : cs.foldl View.applyTo (rows o) = rows o') {ms : List Message} (hms : Sent cs ms) :
    InSync s' (ms.foldl View.handle v) := by
  obtain ⟨hr, hp⟩ := h.rows_eq ho
  have hroots : cs.foldl View.applyTo v.roots = rows o' := by rw [hr, hcs]
  rcases hms with ⟨rfl, rfl⟩ | ⟨hne, rfl | ⟨target, rfl⟩⟩
  · exact .of_some ho' hk hc hroots hp
  · exact .of_some ho' hk hc hroots (if_neg hne)
  · exact .of_some ho' hk hc hroots (if_neg hne)

theorem inSync_clear (s : Session) (reason : Absence) (v : View) :
    InSync (s.step (.clear reason)).2 ((s.step (.clear reason)).1.foldl View.handle v) :=
  .of_none rfl rfl

theorem inSync_follows (h : InSync s v) {move : Outline → Tracker × Outline × List Change}
    (hmove : ∀ o, Retouched o (move o).2.1 (move o).2.2) {result : List Message × Session}
    (hf : s.Follows move result) : InSync result.2 (result.1.foldl View.handle v) := by
  rcases hf with ⟨-, rfl⟩ | ⟨o, inboxes, ho, hsent, hs⟩
  · exact h
  · obtain ⟨hk, hc⟩ := h.keyed o ho
    have hk' := (hmove o).wellKeyed hk
    have hc' : result.2.badges.Counted (move o).2.1 := by
      rw [hs]
      exact Badges.Counted.of_unlit_eq hc (hmove o).unlit
    exact inSync_sent h ho (by rw [hs]) hk' hc' (hmove o).rows hsent

theorem inSync_diagnosticsChanged (h : InSync s v) (d : Document) (ds : List Diagnostic) :
    InSync (s.diagnosticsChanged d ds).2 ((s.diagnosticsChanged d ds).1.foldl View.handle v) := by
  rcases s.diagnosticsChanged_cases d ds with ⟨-, hs⟩ | ⟨o, inboxes, ho, -, hsent, hs⟩
  · rw [hs]
    exact h.congr rfl rfl rfl rfl
  · obtain ⟨hk, hc⟩ := h.keyed o ho
    rw [hs]
    exact inSync_sent h ho rfl (Badges.wellKeyed_apply hk hc ds) (Badges.counted_apply hk hc ds)
      (Badges.foldl_applyTo_apply hk hc ds) hsent

/-- A new outline takes the place of the old one, if there was any. -/
theorem inSync_install (h : InSync s v) (d : Document) {new : Outline} (hk : new.WellKeyed)
    (hz : ∀ i ∈ new.items, i.tally = .zero) :
    InSync (s.install d new).2 ((s.install d new).1.foldl View.handle v) := by
  unfold install
  cases ho : s.outline with
  | none =>
    have hc : Badges.none.Counted new := Badges.counted_none hz
    exact .of_some rfl (Badges.wellKeyed_apply hk hc _) (Badges.counted_apply hk hc _) rfl rfl
  | some old =>
    obtain ⟨hko, -⟩ := h.keyed old ho
    obtain ⟨hr, hp⟩ := h.rows_eq ho
    have lent := lendExpansion_eq hk (old.changesTo new).expansion
    have hkl : (lendExpansion (old.changesTo new).expansion new).WellKeyed := by
      rw [lent]
      exact hk.mapAll (Item.lend_key _) (Item.lend_path _)
    -- lending expansion brings no tallies, so nothing has to be remembered before diagnostics are
    -- put down
    have hc : Badges.none.Counted (lendExpansion (old.changesTo new).expansion new) := by
      intro i hi ht
      rw [lent, Outline.items, valuesAll_mapAll] at hi
      obtain ⟨j, hj, rfl⟩ := List.mem_map.1 hi
      exact absurd (hz j hj) (Item.lend_tally _ j ▸ ht)
    have hrows : ((old.changesTo new).changes ++ (Badges.none.apply
        (lendExpansion (old.changesTo new).expansion new) (s.rememberedFor d)).2.2).foldl
          View.applyTo v.roots = rows (Badges.none.apply
            (lendExpansion (old.changesTo new).expansion new) (s.rememberedFor d)).2.1 := by
      rw [hr, List.foldl_append, foldl_applyTo_changesTo hko hk, Badges.foldl_applyTo_apply hkl hc]
    refine .of_some rfl (Badges.wellKeyed_apply hkl hc _) (Badges.counted_apply hkl hc _) hrows ?_
    exact (congrArg (ite _ · none) hp).trans (ite_self _)

theorem inSync_completeRebuild (h : InSync s v) (t : Ticket) (symbols : Forest Symbol)
    (text : Option TextLines) (hd : s.IsCurrent t → Distinct (s.outlineOf symbols text)) :
    InSync (s.completeRebuild t symbols text).2
      ((s.completeRebuild t symbols text).1.foldl View.handle v) := by
  rcases s.completeRebuild_cases t symbols text with ⟨-, hs⟩ | ⟨-, -, hs⟩ | ⟨hc, -, hs⟩
  · rw [hs]
    exact h
  · rw [hs]
    exact inSync_clear _ _ v
  · rw [hs]
    have hscanned : InSync { s with marks := s.scan text } v := h.congr rfl rfl rfl rfl
    refine inSync_install hscanned _ ⟨hd hc, located_ofForest _⟩ fun i hi => ?_
    obtain ⟨key, detail, range, selection, p, rfl⟩ := fresh_of_mem_ofSymbols hi
    rfl

theorem inSync_step (h : InSync s v) {e : Event} (hu : s.Unambiguous e) :
    InSync (s.step e).2 ((s.step e).1.foldl View.handle v) := by
  cases e with
  | updateDocument document =>
    rcases s.updateDocument_cases document with ⟨-, reason, hs⟩ | ⟨d, -, -, hs⟩
    · rw [hs]
      exact inSync_clear s reason v
    · rw [hs]
      exact h.congr rfl rfl rfl rfl
  | completeRebuild t symbols text => exact inSync_completeRebuild h t symbols text hu
  | selectionChanged cursors =>
    exact inSync_follows h (s.tracker.retouched_focus · cursors) (s.follows_selectionChanged cursors)
  | viewportChanged visible =>
    exact inSync_follows h (s.tracker.retouched_view · visible) (s.follows_viewportChanged visible)
  | diagnosticsChanged d ds => exact inSync_diagnosticsChanged h d ds
  | setPin pin => exact h.congr rfl rfl rfl rfl
  | clear reason => exact inSync_clear s reason v
  | changeDepth delta => exact h.congr rfl rfl rfl rfl
  | attachView => exact h.congr rfl rfl rfl rfl

/-! ## Runs -/

theorem inSync_run (h : InSync s v) {es : List Event} (hu : s.AllUnambiguous es) :
    InSync (s.run es).2 ((s.run es).1.foldl View.handle v) := by
  induction es generalizing s v with
  | nil => exact h
  | cons e es ih =>
    obtain ⟨he, hes⟩ := hu
    have := ih (inSync_step h he) hes
    rw [← List.foldl_append] at this
    exact this

theorem Fresh.inSync (h : s.Fresh) (depth : Option Nat) : InSync s (View.empty depth) :=
  .of_none h.empty.1 rfl

/-- After every run, a display that started empty and carried out all messages shows the outline of
the session. -/
theorem shows_run (h : s.Fresh) {es : List Event} (hu : s.AllUnambiguous es) (depth : Option Nat) :
    ((s.run es).1.foldl View.handle (View.empty depth)).Shows (s.run es).2.outline :=
  (inSync_run (h.inSync depth) hu).shows

/-- A run in which entries are found, focused, marked by an error, and found elsewhere. -/
theorem shows_run_edited :
    let leaf (name : String) (first last : Nat) : Rose Symbol :=
      node ⟨⟨.function, name⟩, none, .ofLines first last, .ofLines first first⟩ []
    let d : Document := ⟨"file:a"⟩
    let es : List Event := [
      .updateDocument (some d),
      .completeRebuild ⟨d, 1⟩ [leaf "f" 0 9, leaf "g" 2 3] none,
      .selectionChanged [.ofLines 2 2],
      .diagnosticsChanged d [⟨.ofLines 3 3, some .error, none, none, ""⟩],
      .updateDocument (some d),
      .completeRebuild ⟨d, 2⟩ [leaf "g" 0 4, leaf "f" 5 9] none]
    standard.Fresh ∧ standard.AllUnambiguous es ∧
      ((standard.run es).1.foldl View.handle (View.empty none)).Shows (standard.run es).2.outline := by
  intro leaf d es
  have hu : standard.AllUnambiguous es := by
    refine .of_forall fun t symbols text h => ?_
    simp only [es, List.mem_cons, Event.completeRebuild.injEq, reduceCtorEq, List.not_mem_nil,
      false_or, or_false] at h
    rcases h with ⟨-, rfl, rfl⟩ | ⟨-, rfl, rfl⟩ <;> rw [outlineOf, ofSymbols_eq_inserted] <;> decide +kernel
  exact ⟨fresh_standard, hu, shows_run fresh_standard hu none⟩

end Session

end SymbolOutline
