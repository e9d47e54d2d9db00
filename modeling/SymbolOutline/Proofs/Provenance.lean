import SymbolOutline.Proofs.Nesting
import SymbolOutline.Proofs.Replay
import SymbolOutline.Proofs.Run
import SymbolOutline.Proofs.Tracker

/-
Which diagnostics the tallies of a session's outline come from. A new outline starts with the list
that came last, if it came for the same document; after that every list is put down that comes for
the document the session tracks. The history of an outline (`Provenance`) records those lists, and
replaying it on the bare outline gives the tallies it has (`Traced`).
-/

namespace SymbolOutline

open Forest Rose Outline

/-! ## Tallies of a new outline -/

namespace Outline

/-- Lending does not show in what does not look at expansion. -/
theorem mapAll_lendExpansion {α : Type} {φ : Item → α} (hφ : ∀ i b, φ { i with expanded := b } = φ i)
    (es : List (Path × Bool)) (o : Outline) : mapAll φ (lendExpansion es o) = mapAll φ o := by
  induction es generalizing o with
  | nil => rfl
  | cons e es ih =>
    show mapAll φ (lendExpansion es (setExpanded e.2 e.1 o)) = _
    rw [ih]
    exact mapAll_modify (f := fun i : Item => { i with expanded := e.2 }) (fun i => hφ i e.2) e.1 o

theorem untally_of_zero {o : Outline} (h : ∀ i ∈ o.items, i.tally = .zero) : o.untally = o :=
  mapAll_eq_self fun i hi => by rw [Item.untally, ← h i hi]

theorem untally_eq_self {o : Outline} (h : ∀ t ∈ valuesAll o.tallies, t = .zero) : o.untally = o := by
  refine untally_of_zero fun i hi => h i.tally ?_
  rw [tallies, valuesAll_mapAll]
  exact List.mem_map_of_mem hi

theorem tally_ofSymbols (hidden : List Kind) (symbols : Forest Symbol) :
    ∀ t ∈ valuesAll (ofSymbols hidden symbols).tallies, t = .zero := by
  intro t ht
  rw [tallies, valuesAll_mapAll] at ht
  obtain ⟨i, hi, rfl⟩ := List.mem_map.1 ht
  obtain ⟨key, detail, range, selection, p, rfl⟩ := fresh_of_mem_ofSymbols hi
  rfl

/-- The outline as a first list of diagnostics leaves it. -/
def diagnosed (o : Outline) (ds : List Diagnostic) : Outline := (Badges.none.apply o.untally ds).2.1

theorem untally_untally (o : Outline) : o.untally.untally = o.untally := mapAll_mapAll ..

theorem untally_diagnosed (o : Outline) (ds : List Diagnostic) : (o.diagnosed ds).untally = o.untally := by
  rw [diagnosed, Badges.untally_apply, untally_untally]

theorem diagnosed_diagnosed (o : Outline) (ds ds' : List Diagnostic) :
    (o.diagnosed ds).diagnosed ds' = o.diagnosed ds' := by
  show (Badges.none.apply (o.diagnosed ds).untally ds').2.1 = _
  rw [untally_diagnosed]
  rfl

end Outline

namespace Session

variable {s : Session}

/-- Nor does it show there that expansion is lent to a new outline. -/
theorem mapAll_lent {α : Type} {φ : Item → α} (hφ : ∀ i b, φ { i with expanded := b } = φ i) (s : Session)
    (new : Outline) : mapAll φ (s.lent new) = mapAll φ new := by
  unfold lent
  cases s.outline with
  | none => rfl
  | some old => exact mapAll_lendExpansion hφ _ _

theorem untally_lent (s : Session) (symbols : Forest Symbol) (text : Option TextLines) (s' : Session) :
    (s'.lent (s.outlineOf symbols text)).untally = s'.lent (s.outlineOf symbols text) := by
  refine untally_eq_self fun t ht => ?_
  rw [tallies, mapAll_lent fun _ _ => rfl] at ht
  exact tally_ofSymbols _ _ t ht

/-- A new outline has the tallies that the remembered diagnostics of its document give it. -/
theorem diagnosed_of_completeRebuild {t : Ticket} {symbols : Forest Symbol} {text : Option TextLines}
    (hc : s.IsCurrent t) (hne : s.outlineOf symbols text ≠ []) :
    ∃ o : Outline, (s.completeRebuild t symbols text).2.outline = some o ∧
      (s.completeRebuild t symbols text).2.badges =
        (Badges.none.apply o.untally (s.rememberedFor t.document)).1 ∧
      o = o.diagnosed (s.rememberedFor t.document) := by
  rcases s.completeRebuild_cases t symbols text with ⟨h, -⟩ | ⟨-, h, -⟩ | ⟨-, -, hs⟩
  · exact absurd hc h
  · exact absurd h hne
  · obtain ⟨shelf, inboxes, hi⟩ := install_spec { s with marks := s.scan text } t.document
      (s.outlineOf symbols text)
    -- the outline has no tallies before the diagnostics are put down, so taking them off is nothing
    have hbase := untally_lent s symbols text { s with marks := s.scan text }
    obtain ⟨base, hb⟩ : ∃ base, base =
      { s with marks := s.scan text }.lent (s.outlineOf symbols text) := ⟨_, rfl⟩
    rw [← hb] at hi hbase
    have hdiag : (Badges.none.apply base (s.rememberedFor t.document)).2.1 =
        base.diagnosed (s.rememberedFor t.document) := by
      unfold diagnosed
      rw [hbase]
    have huntally : (base.diagnosed (s.rememberedFor t.document)).untally = base := by
      rw [untally_diagnosed, hbase]
    rw [hs, hi]
    refine ⟨base.diagnosed (s.rememberedFor t.document), congrArg some hdiag, ?_, ?_⟩
    · rw [huntally]; rfl
    · rw [diagnosed_diagnosed]

/-- The list of diagnostics that came last for a document; empty if none came. -/
def lastFor (d : Document) (es : List Event) : List Diagnostic :=
  (((reports es).filter fun r => r.1 = d).getLast?.map Prod.snd).getD []

theorem Fresh.remembered_run (h : s.Fresh) (es : List Event) :
    (s.run es).2.remembered = (reports es).getLast? := by
  rw [Session.remembered_run, h.empty.2, Option.or_none]

/-- What is remembered for a document is the list that came last for it, unless a list came for
another document after that. -/
theorem Fresh.rememberedFor_run (h : s.Fresh) (es : List Event) (d : Document) :
    (s.run es).2.rememberedFor d =
      if ∀ r ∈ (reports es).getLast?, r.1 = d then lastFor d es else [] := by
  unfold rememberedFor lastFor
  rw [h.remembered_run]
  rcases List.eq_nil_or_concat (reports es) with hr | ⟨rs, r, hr⟩
  · rw [hr]; rfl
  · rw [hr]
    by_cases hd : r.1 = d <;> simp [hd]

/-- A new outline of a document has the tallies that the list that came last for the document gives
it, unless a list came for another document after that: then it has no tallies, which is the same
only if the list would have given it none. -/
theorem tallies_completeRebuild (h : s.Fresh) (es : List Event) {t : Ticket}
    {symbols : Forest Symbol} {text : Option TextLines} (hc : (s.run es).2.IsCurrent t)
    (hne : (s.run es).2.outlineOf symbols text ≠ []) :
    ∃ o : Outline, ((s.run es).2.completeRebuild t symbols text).2.outline = some o ∧
      o.tallies = (o.diagnosed (if ∀ r ∈ (reports es).getLast?, r.1 = t.document then
        lastFor t.document es else [])).tallies ∧
      (o.tallies = (o.diagnosed (lastFor t.document es)).tallies ↔
        (∀ r ∈ (reports es).getLast?, r.1 = t.document) ∨
          (o.diagnosed []).tallies = (o.diagnosed (lastFor t.document es)).tallies) := by
  obtain ⟨o, ho, -, hdiag⟩ := diagnosed_of_completeRebuild hc hne
  rw [h.rememberedFor_run] at hdiag
  refine ⟨o, ho, congrArg tallies hdiag, ?_⟩
  by_cases hlast : ∀ r ∈ (reports es).getLast?, r.1 = t.document
  · rw [if_pos hlast] at hdiag
    exact ⟨fun _ => .inl hlast, fun _ => congrArg tallies hdiag⟩
  · rw [if_neg hlast] at hdiag
    constructor
    · intro heq
      right
      rw [← heq]
      exact (congrArg tallies hdiag).symm
    · rintro (hl | heq)
      · exact absurd hl hlast
      · exact (congrArg tallies hdiag).trans heq

/-- The list that came last at all came for the document of the new outline. -/
theorem tallies_completeRebuild_reported :
    let d : Document := ⟨"file:a"⟩
    let leaf : Rose Symbol := node ⟨⟨.function, "f"⟩, none, .ofLines 0 9, .ofLines 0 0⟩ []
    let es : List Event := [
      .diagnosticsChanged ⟨"file:b"⟩ [],
      .diagnosticsChanged d [⟨.ofLines 3 3, some .error, none, none, ""⟩],
      .updateDocument (some d)]
    standard.Fresh ∧ (standard.run es).2.IsCurrent ⟨d, 1⟩ ∧
      (standard.run es).2.outlineOf [leaf] none ≠ [] ∧
      ∃ o : Outline, ((standard.run es).2.completeRebuild ⟨d, 1⟩ [leaf] none).2.outline = some o ∧
        o.tallies = (o.diagnosed (if ∀ r ∈ (reports es).getLast?, r.1 = d then
          lastFor d es else [])).tallies ∧
        (o.tallies = (o.diagnosed (lastFor d es)).tallies ↔
          (∀ r ∈ (reports es).getLast?, r.1 = d) ∨
            (o.diagnosed []).tallies = (o.diagnosed (lastFor d es)).tallies) := by
  intro d leaf es
  have hc : (standard.run es).2.IsCurrent ⟨d, 1⟩ := by
    simp only [es, run, updateDocument_of_isSupported _ (show d.isSupported = true by decide)]
    decide +kernel
  have hne : (standard.run es).2.outlineOf [leaf] none ≠ [] := by
    simp only [es, run, updateDocument_of_isSupported _ (show d.isSupported = true by decide)]
    decide +kernel
  exact ⟨fresh_standard, hc, hne, tallies_completeRebuild fresh_standard es hc hne⟩

/-- A report for another document makes the session forget the list that came last for this one. -/
theorem tallies_forgotten :
    let d : Document := ⟨"file:a"⟩
    let leaf : Rose Symbol := node ⟨⟨.function, "f"⟩, none, .ofLines 0 9, .ofLines 0 0⟩ []
    let es : List Event := [
      .updateDocument (some d),
      .completeRebuild ⟨d, 1⟩ [leaf] none,
      .diagnosticsChanged d [⟨.ofLines 3 3, some .error, none, none, ""⟩],
      .diagnosticsChanged ⟨"file:b"⟩ [],
      .updateDocument (some d)]
    standard.Fresh ∧ (standard.run es).2.IsCurrent ⟨d, 2⟩ ∧
      ¬ ∃ o : Outline, ((standard.run es).2.completeRebuild ⟨d, 2⟩ [leaf] none).2.outline = some o ∧
        o.tallies = (o.diagnosed (lastFor d es)).tallies := by
  intro d leaf es
  have hc : (standard.run es).2.IsCurrent ⟨d, 2⟩ := by
    simp only [es, run, updateDocument_of_isSupported _ (show d.isSupported = true by decide)]
    decide +kernel
  have hdiffer : ((standard.run es).2.completeRebuild ⟨d, 2⟩ [leaf] none).2.outline.map
      (fun o : Outline => decide (o.tallies = (o.diagnosed (lastFor d es)).tallies)) =
        some false := by
    simp only [es, run, updateDocument_of_isSupported _ (show d.isSupported = true by decide)]
    decide +kernel
  refine ⟨fresh_standard, hc, ?_⟩
  rintro ⟨o, ho, heq⟩
  rw [ho] at hdiffer
  simp [heq] at hdiffer

/-! ## The history of an outline -/

/-- Where an outline comes from: the document whose rebuild it is, and the lists of diagnostics put
down on it since, with the documents they came for. -/
structure Provenance where
  home : Document
  laid : List (Document × List Diagnostic)

/-- The history of the outline after an event. -/
def trace (s : Session) (p : Option Provenance) : Event → Option Provenance
  | .updateDocument document => if document.any Document.isSupported then p else none
  | .completeRebuild t symbols text =>
    if s.IsCurrent t then
      if s.outlineOf symbols text = [] then none
      else some ⟨t.document, [(t.document, s.rememberedFor t.document)]⟩
    else p
  | .diagnosticsChanged d ds =>
    if s.document = some d then p.map fun p => { p with laid := p.laid ++ [(d, ds)] } else p
  | .clear _ => none
  | _ => p

/-- The history of the outline after a run. -/
def provenance (s : Session) (p : Option Provenance) : List Event → Option Provenance
  | [] => p
  | e :: es => (s.step e).2.provenance (s.trace p e) es

/-- The history leads to the outline: to replay it on the bare outline gives the tallies and the
memory of them that there are. -/
def Traced (s : Session) : Option Provenance → Prop
  | none => s.outline = none
  | some p => ∃ o, s.outline = some o ∧
      Badges.replay (p.laid.map Prod.snd) (.none, o.bare) = (s.badges, o.unlit)

theorem Traced.congr {s' : Session} {p : Option Provenance} (h : s.Traced p)
    (ho : s'.outline = s.outline) (hb : s'.badges = s.badges) : s'.Traced p := by
  cases p with
  | none => exact ho.trans h
  | some p =>
    obtain ⟨o, hs, hr⟩ := h
    exact ⟨o, ho.trans hs, by rw [hr, hb]⟩

theorem Traced.follows {p : Option Provenance} (h : s.Traced p)
    {move : Outline → Tracker × Outline × List Change}
    (hmove : ∀ o, Retouched o (move o).2.1 (move o).2.2) {result : List Message × Session}
    (hf : s.Follows move result) : result.2.Traced p := by
  rcases hf with ⟨-, rfl⟩ | ⟨o, inboxes, ho, -, hs⟩
  · exact h
  · rw [hs]
    cases p with
    | none => exact absurd (ho.symm.trans h) (by simp)
    | some p =>
      obtain ⟨o', ho', hr⟩ := h
      obtain rfl := Option.some.inj (ho.symm.trans ho')
      refine ⟨_, rfl, ?_⟩
      rw [bare, (hmove o).unlit]
      exact hr

theorem Traced.diagnosticsChanged {p : Option Provenance} (h : s.Traced p) (d : Document)
    (ds : List Diagnostic) :
    (s.diagnosticsChanged d ds).2.Traced (s.trace p (.diagnosticsChanged d ds)) := by
  rcases s.diagnosticsChanged_cases d ds with ⟨hno, hs⟩ | ⟨o, inboxes, ho, hd, -, hs⟩
  · have hsame : s.trace p (.diagnosticsChanged d ds) = p := by
      rw [trace]
      rcases hno with ho | hd
      · cases p with
        | none => simp
        | some p =>
          obtain ⟨o, ho', -⟩ := h
          exact absurd (ho.symm.trans ho') (by simp)
      · rw [if_neg hd]
    rw [hs, hsame]
    exact h.congr rfl rfl
  · rw [hs, trace, if_pos hd]
    cases p with
    | none => exact absurd (ho.symm.trans h) (by simp)
    | some p =>
      obtain ⟨o', ho', hr⟩ := h
      obtain rfl := Option.some.inj (ho.symm.trans ho')
      refine ⟨_, rfl, ?_⟩
      obtain ⟨hb, hu⟩ := Badges.apply_unlit s.badges o ds
      rw [List.map_append, List.map_cons, List.map_nil, Badges.replay_concat, Badges.bare_apply, hr, hb,
        hu]

theorem Traced.completeRebuild {p : Option Provenance} (h : s.Traced p) (t : Ticket)
    (symbols : Forest Symbol) (text : Option TextLines) :
    (s.completeRebuild t symbols text).2.Traced (s.trace p (.completeRebuild t symbols text)) := by
  rcases s.completeRebuild_cases t symbols text with ⟨hc, hs⟩ | ⟨hc, ho, hs⟩ | ⟨hc, hne, -⟩
  · rw [hs, trace, if_neg hc]
    exact h
  · rw [hs, trace, if_pos hc, if_pos ho]
    exact rfl
  · obtain ⟨o, ho, hb, hdiag⟩ := diagnosed_of_completeRebuild hc hne
    rw [trace, if_pos hc, if_neg hne]
    refine ⟨o, ho, ?_⟩
    obtain ⟨hb', hu⟩ := Badges.apply_unlit .none o.untally (s.rememberedFor t.document)
    rw [bare_eq]
    show ((Badges.none.apply o.untally.unlit _).1, (Badges.none.apply o.untally.unlit _).2.1) = _
    rw [hb, hb', hu]
    exact congrArg (_, ·) (congrArg unlit hdiag.symm)

theorem Traced.step {p : Option Provenance} (h : s.Traced p) (e : Event) :
    (s.step e).2.Traced (s.trace p e) := by
  cases e with
  | updateDocument document =>
    rcases s.updateDocument_cases document with ⟨hd, reason, hs⟩ | ⟨d, rfl, hd, hs⟩
    · rw [hs, trace, hd]
      exact rfl
    · rw [hs, trace, Option.any_some, hd]
      exact h.congr rfl rfl
  | completeRebuild t symbols text => exact h.completeRebuild t symbols text
  | selectionChanged cursors =>
    exact h.follows (s.tracker.retouched_focus · cursors) (s.follows_selectionChanged cursors)
  | viewportChanged visible =>
    exact h.follows (s.tracker.retouched_view · visible) (s.follows_viewportChanged visible)
  | diagnosticsChanged d ds => exact h.diagnosticsChanged d ds
  | setPin pin => exact h.congr rfl rfl
  | clear reason => exact rfl
  | changeDepth delta => exact h.congr rfl rfl
  | attachView => exact h.congr rfl rfl

theorem Traced.run {p : Option Provenance} (h : s.Traced p) (es : List Event) :
    (s.run es).2.Traced (s.provenance p es) := by
  induction es generalizing s p with
  | nil => exact h
  | cons e es ih => exact ih (h.step e)

/-- Every list put down is a report, or the empty list that an outline starts with for want of one. -/
def Known (rs : List (Document × List Diagnostic)) (p : Option Provenance) : Prop :=
  ∀ q ∈ p, ∀ r ∈ q.laid, r ∈ rs ∨ r = (q.home, [])

theorem rememberedFor_cases (s : Session) (d : Document) :
    (d, s.rememberedFor d) ∈ s.remembered ∨ s.rememberedFor d = [] := by
  unfold rememberedFor
  cases s.remembered with
  | none => exact .inr rfl
  | some r =>
    obtain ⟨d', ds⟩ := r
    simp only
    split
    · rename_i hd
      subst hd
      exact .inl rfl
    · exact .inr rfl

theorem Known.trace {rs : List (Document × List Diagnostic)} {p : Option Provenance}
    (h : Known rs p) (hr : ∀ r ∈ s.remembered, r ∈ rs) (e : Event) :
    Known (rs ++ e.report?.toList) (s.trace p e) := by
  have more : Known (rs ++ e.report?.toList) p := fun q hq r hmem =>
    (h q hq r hmem).imp_left (List.mem_append_left _)
  have nothing : Known (rs ++ e.report?.toList) none := fun q hq => by cases hq
  cases e with
  | updateDocument document =>
    rw [Session.trace]
    split
    · exact more
    · exact nothing
  | completeRebuild t symbols text =>
    rw [Session.trace]
    split
    · split
      · exact nothing
      · intro q hq r hmem
        cases hq
        obtain rfl := List.mem_singleton.1 hmem
        rcases s.rememberedFor_cases t.document with hd | hd
        · exact .inl (List.mem_append_left _ (hr _ hd))
        · exact .inr (by rw [hd])
    · exact more
  | diagnosticsChanged d ds =>
    rw [Session.trace]
    split
    · intro q hq r hmem
      obtain ⟨q', hq', rfl⟩ := Option.map_eq_some_iff.1 hq
      rcases List.mem_append.1 hmem with hmem | hmem
      · exact more q' hq' r hmem
      · obtain rfl := List.mem_singleton.1 hmem
        exact .inl (List.mem_append_right _ (List.mem_singleton_self _))
    · exact more
  | clear reason => exact nothing
  | _ => exact more

theorem Known.provenance {rs : List (Document × List Diagnostic)} {p : Option Provenance}
    (h : Known rs p) (hr : ∀ r ∈ s.remembered, r ∈ rs) (es : List Event) :
    Known (rs ++ reports es) (s.provenance p es) := by
  -- what is remembered is always one of the reports so far, since a rebuild puts it down
  induction es generalizing s p rs with
  | nil =>
    show Known (rs ++ []) p
    rwa [List.append_nil]
  | cons e es ih =>
    have hstep : ∀ r ∈ (s.step e).2.remembered, r ∈ rs ++ e.report?.toList := by
      intro r hmem
      rw [(s.frame_step e).2] at hmem
      rcases Option.or_eq_some_iff.1 hmem with hmem | ⟨-, hmem⟩
      · exact List.mem_append_right _ (by simp [hmem])
      · exact List.mem_append_left _ (hr r hmem)
    have := ih (h.trace hr e) hstep
    have hreports : reports (e :: es) = e.report?.toList ++ reports es := by
      unfold reports
      cases he : e.report? with
      | none => rw [List.filterMap_cons_none he]; rfl
      | some r => rw [List.filterMap_cons_some he]; rfl
    rw [hreports, ← List.append_assoc]
    exact this

/-- An outline keeps its tallies, and displays are told nothing. -/
def Unaffected (o : Outline) (result : List Message × Session) : Prop :=
  result.1 = [] ∧ ∃ o', result.2.outline = some o' ∧ o'.tallies = o.tallies

/-- What the history of a session's outline says about its tallies. -/
structure Accounted (s : Session) (rs : List (Document × List Diagnostic)) (o : Outline)
    (p : Provenance) : Prop where
  /-- The tallies come from the lists put down, in order, -/
  replayed : o.tallies = (Badges.replay (p.laid.map Prod.snd) (.none, o.bare)).2.tallies
  /-- and all of these lists were reported. -/
  reported : ∀ r ∈ p.laid, r ∈ rs ∨ r = (p.home, [])
  /-- A report for another document affects the outline exactly if that document is tracked while the
  outline is there, and its diagnostics change something. -/
  foreign : ∀ d ds, d ≠ p.home → (Unaffected o (s.diagnosticsChanged d ds) ↔
    (s.document = some d → (s.badges.apply o ds).2.2 = [] ∧
      (s.badges.apply o ds).2.1.tallies = o.tallies))
  /-- Nothing but reports changes the tallies of an outline that stays. -/
  kept : ∀ e : Event, e.report? = none →
    (∀ t symbols text, e = .completeRebuild t symbols text → ¬ s.IsCurrent t) →
    ∀ o', (s.step e).2.outline = some o' → o'.tallies = o.tallies

theorem unaffected_diagnosticsChanged {o : Outline} (ho : s.outline = some o) (d : Document)
    (ds : List Diagnostic) :
    Unaffected o (s.diagnosticsChanged d ds) ↔
      (s.document = some d → (s.badges.apply o ds).2.2 = [] ∧
        (s.badges.apply o ds).2.1.tallies = o.tallies) := by
  rcases s.diagnosticsChanged_cases d ds with ⟨hno, hs⟩ | ⟨o', inboxes, ho', hd, hsent, hs⟩
  · have hd : s.document ≠ some d := by
      rcases hno with hno | hd
      · exact absurd (ho.symm.trans hno) (by simp)
      · exact hd
    rw [hs]
    exact ⟨fun _ h => absurd h hd, fun _ => ⟨rfl, o, ho, rfl⟩⟩
  · obtain rfl := Option.some.inj (ho.symm.trans ho')
    have hnil : (s.diagnosticsChanged d ds).1 = [] ↔ (s.badges.apply o ds).2.2 = [] := by
      rcases hsent with ⟨hc, hm⟩ | ⟨hc, hm | ⟨target, hm⟩⟩
      · exact ⟨fun _ => hc, fun _ => hm⟩
      · rw [hm]
        exact ⟨fun h => absurd h (by simp), fun h => absurd h hc⟩
      · rw [hm]
        exact ⟨fun h => absurd h (by simp), fun h => absurd h hc⟩
    unfold Unaffected
    rw [hnil, hs]
    constructor
    · rintro ⟨hc, o', ho', ht⟩ -
      obtain rfl := Option.some.inj ho'
      exact ⟨hc, ht⟩
    · intro h
      exact ⟨(h hd).1, _, rfl, (h hd).2⟩

theorem tallies_step {o o' : Outline} (ho : s.outline = some o) {e : Event} (he : e.report? = none)
    (hc : ∀ t symbols text, e = .completeRebuild t symbols text → ¬ s.IsCurrent t)
    (ho' : (s.step e).2.outline = some o') : o'.tallies = o.tallies := by
  have same : (s.step e).2.outline = s.outline → o'.tallies = o.tallies := by
    intro hsame
    rw [Option.some.inj ((ho'.symm.trans hsame).trans ho)]
  have cleared : (s.step e).2.outline = none → o'.tallies = o.tallies := fun hnone =>
    absurd (ho'.symm.trans hnone) (by simp)
  have followed : ∀ {move : Outline → Tracker × Outline × List Change},
      (∀ o, Retouched o (move o).2.1 (move o).2.2) → s.Follows move (s.step e) →
      o'.tallies = o.tallies := by
    rintro move hmove (⟨-, hs⟩ | ⟨o'', inboxes, ho'', -, hs⟩)
    · exact same (by rw [hs])
    · obtain rfl := Option.some.inj (ho.symm.trans ho'')
      rw [hs] at ho'
      obtain rfl := Option.some.inj ho'
      rw [← tallies_unlit, (hmove o).unlit, tallies_unlit]
  cases e with
  | updateDocument document =>
    rcases s.updateDocument_cases document with ⟨-, reason, hs⟩ | ⟨d, -, -, hs⟩
    · exact cleared (by rw [hs]; rfl)
    · exact same (by rw [hs])
  | completeRebuild t symbols text =>
    rcases s.completeRebuild_cases t symbols text with ⟨-, hs⟩ | ⟨h, -⟩ | ⟨h, -⟩
    · exact same (by rw [step, hs])
    · exact absurd h (hc t symbols text rfl)
    · exact absurd h (hc t symbols text rfl)
  | selectionChanged cursors =>
    exact followed (s.tracker.retouched_focus · cursors) (s.follows_selectionChanged cursors)
  | viewportChanged visible =>
    exact followed (s.tracker.retouched_view · visible) (s.follows_viewportChanged visible)
  | diagnosticsChanged d ds => cases he
  | setPin pin => exact same rfl
  | clear reason => exact cleared rfl
  | changeDepth delta => exact same rfl
  | attachView => exact same rfl

/-- The tallies of an outline come from the lists that came, since the outline did, for the document
that was tracked. These are lists for the outline's own document unless another document was tracked
already. -/
theorem accounted_run (h : s.Fresh) (es : List Event) {o : Outline}
    (ho : (s.run es).2.outline = some o) :
    ∃ p, s.provenance none es = some p ∧ (s.run es).2.Accounted (reports es) o p := by
  have htraced : (s.run es).2.Traced (s.provenance none es) := Traced.run (p := none) h.empty.1 es
  have hknown : Known ([] ++ reports es) (s.provenance none es) :=
    Known.provenance (p := none) (fun _ hq => by cases hq)
      (fun r hr => by rw [h.empty.2] at hr; cases hr) es
  cases hp : s.provenance none es with
  | none =>
    rw [hp] at htraced
    exact absurd (ho.symm.trans htraced) (by simp)
  | some p =>
    rw [hp] at htraced hknown
    obtain ⟨o', ho', hreplay⟩ := htraced
    obtain rfl := Option.some.inj (ho.symm.trans ho')
    refine ⟨p, rfl, ?_, fun r hr => hknown p rfl r hr, fun d ds _ => ?_, fun e he hc o' ho' => ?_⟩
    · rw [hreplay]
      exact (tallies_unlit o).symm
    · exact unaffected_diagnosticsChanged ho d ds
    · exact tallies_step ho he hc ho'

/-- An outline on which two lists for its own document were put down. -/
theorem accounted_run_home :
    let d : Document := ⟨"file:a"⟩
    let leaf : Rose Symbol := node ⟨⟨.function, "f"⟩, none, .ofLines 0 9, .ofLines 0 0⟩ []
    let es : List Event := [
      .diagnosticsChanged d [⟨.ofLines 3 3, some .error, none, none, ""⟩],
      .updateDocument (some d),
      .completeRebuild ⟨d, 1⟩ [leaf] none,
      .diagnosticsChanged ⟨"file:b"⟩ [⟨.ofLines 4 4, some .error, none, none, ""⟩],
      .diagnosticsChanged d [⟨.ofLines 5 5, some .warning, none, none, ""⟩]]
    ∃ o, standard.Fresh ∧ (standard.run es).2.outline = some o ∧
      ∃ p, standard.provenance none es = some p ∧
        (standard.run es).2.Accounted (reports es) o p := by
  intro d leaf es
  have hsome : (standard.run es).2.outline.isSome = true := by
    simp only [es, run, updateDocument_of_isSupported _ (show d.isSupported = true by decide)]
    decide +kernel
  obtain ⟨o, ho⟩ := Option.isSome_iff_exists.1 hsome
  exact ⟨o, fresh_standard, ho, accounted_run fresh_standard es ho⟩

/-- While the outline of one document is there and another document is tracked already, a report for
the other document is put down on the outline. -/
theorem tallies_misplaced :
    let d : Document := ⟨"file:a"⟩
    let d' : Document := ⟨"file:b"⟩
    let leaf : Rose Symbol := node ⟨⟨.function, "f"⟩, none, .ofLines 0 9, .ofLines 0 0⟩ []
    let es : List Event := [
      .updateDocument (some d),
      .completeRebuild ⟨d, 1⟩ [leaf] none,
      .updateDocument (some d')]
    let s := (standard.run es).2
    let result := s.diagnosticsChanged d' [⟨.ofLines 3 3, some .error, none, none, ""⟩]
    standard.Fresh ∧ (standard.provenance none es).map Provenance.home = some d ∧ d' ≠ d ∧
      result.1 ≠ [] ∧ result.2.outline.map tallies ≠ s.outline.map tallies := by
  intro d d' leaf es s result
  have hd : d.isSupported = true := by decide
  have hd' : d'.isSupported = true := by decide
  have hhome : (standard.provenance none es).map Provenance.home = some d := by
    simp only [es, provenance, updateDocument_of_isSupported _ hd, trace, Option.any_some, hd, hd']
    decide +kernel
  have hsent : result.1 ≠ [] := by
    simp only [result, s, es, run, updateDocument_of_isSupported _ hd,
      updateDocument_of_isSupported _ hd']
    decide +kernel
  have htallies : result.2.outline.map tallies ≠ s.outline.map tallies := by
    simp only [result, s, es, run, updateDocument_of_isSupported _ hd,
      updateDocument_of_isSupported _ hd']
    decide +kernel
  exact ⟨fresh_standard, hhome, by decide, hsent, htallies⟩

end Session

end SymbolOutline
