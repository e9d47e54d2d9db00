import SymbolOutline.Proofs.Forest
import SymbolOutline.Session

/-
Runs of a session. An event is one operation with its arguments; the messages of a run are those of
its events, one after the other. A rebuild may be completed with any ticket at all, so also with
every ticket that the session ever handed out, in any order and any number of times.
-/

namespace SymbolOutline

/-- Something that happens to a session. -/
inductive Event where
  /-- The document was edited, or another one is in the editor. -/
  | updateDocument (document : Option Document)
  /-- Symbols are brought with a ticket, and the text if there is one. -/
  | completeRebuild (ticket : Ticket) (symbols : Forest Symbol) (text : Option TextLines)
  | selectionChanged (cursors : List Span)
  | viewportChanged (visible : Span)
  | diagnosticsChanged (document : Document) (diagnostics : List Diagnostic)
  | setPin (pin : Pin)
  | clear (reason : Absence)
  | changeDepth (delta : Int)
  | attachView

/-- The diagnostics that an event reports, with the document they are for. -/
def Event.report? : Event → Option (Document × List Diagnostic)
  | .diagnosticsChanged document diagnostics => some (document, diagnostics)
  | _ => none

/-- The event is no request for a rebuild, brings no symbols and clears nothing. -/
def Event.Quiet : Event → Prop
  | .updateDocument _ => False
  | .completeRebuild .. => False
  | .clear _ => False
  | _ => True

/-- The reports of diagnostics in a run, in order. -/
def reports (es : List Event) : List (Document × List Diagnostic) := es.filterMap Event.report?

namespace Session

/-- A session fresh from its settings, with any retry policy, shelf and listeners. -/
def Fresh (s : Session) : Prop :=
  ∃ settings s₀, Session.new settings = .ok s₀ ∧
    s = { s₀ with retry := s.retry, shelf := s.shelf, inboxes := s.inboxes }

theorem Fresh.empty {s : Session} (h : s.Fresh) : s.outline = none ∧ s.remembered = none := by
  obtain ⟨settings, s₀, hs₀, hs⟩ := h
  unfold Session.new at hs₀
  split at hs₀
  · cases hs₀
  · cases hs₀
    rw [hs]
    exact ⟨rfl, rfl⟩

/-- A session fresh from the settings where none are chosen. -/
def standard : Session where
  settings := .standard
  retry := .standard
  generation := 0
  document := none
  outline := none
  marks := .none
  tracker := .new
  badges := .none
  remembered := none
  shelf := none
  inboxes := []

theorem fresh_standard : standard.Fresh := ⟨.standard, standard, rfl, rfl⟩

/-- What an event makes a session send, and the session after it. -/
def step (s : Session) : Event → List Message × Session
  | .updateDocument document =>
    match s.updateDocument document with
    | (.cleared message, s) => ([message], s)
    | (.rebuild _, s) => ([], s)
  | .completeRebuild ticket symbols text => s.completeRebuild ticket symbols text
  | .selectionChanged cursors => s.selectionChanged cursors
  | .viewportChanged visible => s.viewportChanged visible
  | .diagnosticsChanged document diagnostics => s.diagnosticsChanged document diagnostics
  | .setPin pin => ([], s.setPin pin)
  | .clear reason =>
    let (message, s) := s.clear reason
    ([message], s)
  | .changeDepth delta => s.changeDepth delta
  | .attachView => s.attachView

/-- What a run of events makes a session send, and the session after it. -/
def run (s : Session) : List Event → List Message × Session
  | [] => ([], s)
  | e :: es =>
    let (now, s) := s.step e
    let (later, s) := s.run es
    (now ++ later, s)

/-- The outline that a session makes of symbols and a text. -/
def outlineOf (s : Session) (symbols : Forest Symbol) (text : Option TextLines) : Outline :=
  Outline.ofSymbols s.settings.hiddenKinds (symbols ++ (s.scan text).symbols)

/-- If an event makes the session put symbols in order, siblings of the outline have different
keys. -/
def Unambiguous (s : Session) : Event → Prop
  | .completeRebuild ticket symbols text =>
    s.IsCurrent ticket → Forest.Distinct (s.outlineOf symbols text)
  | _ => True

/-- In every outline that the session makes along a run, siblings have different keys. -/
def AllUnambiguous (s : Session) : List Event → Prop
  | [] => True
  | e :: es => s.Unambiguous e ∧ (s.step e).2.AllUnambiguous es

/-! ## What each operation does -/

variable (s : Session)

/-- How changes are sent: not at all if there are none, else as one update, after which displays may
be told to scroll. -/
def Sent (cs : List Change) (ms : List Message) : Prop :=
  cs = [] ∧ ms = [] ∨ cs ≠ [] ∧ (ms = [.update cs] ∨ ∃ target, ms = [.update cs, .scroll target])

theorem emitChanges_spec (cs : List Change) (cause : Follow) (target : ScrollTarget) :
    Sent cs (s.emitChanges cs cause target).1 ∧
      ∃ inboxes, (s.emitChanges cs cause target).2 = { s with inboxes } := by
  unfold emitChanges
  split
  · rename_i h
    exact ⟨.inl ⟨h, rfl⟩, s.inboxes, rfl⟩
  · rename_i h
    simp only
    split
    · exact ⟨.inr ⟨h, .inr ⟨target, rfl⟩⟩, _, rfl⟩
    · exact ⟨.inr ⟨h, .inl rfl⟩, _, rfl⟩

/-- What a session sends and becomes when it follows the editor. -/
def Follows (move : Outline → Tracker × Outline × List Change) (result : List Message × Session) :
    Prop :=
  s.outline = none ∧ result = ([], s) ∨
    ∃ o inboxes, s.outline = some o ∧ Sent (move o).2.2 result.1 ∧
      result.2 = { s with tracker := (move o).1, outline := some (move o).2.1, inboxes }

theorem Follows.frame {s : Session} {move : Outline → Tracker × Outline × List Change}
    {result : List Message × Session} (h : s.Follows move result) :
    ∃ tracker outline inboxes, result.2 = { s with tracker, outline, inboxes } := by
  rcases h with ⟨-, rfl⟩ | ⟨o, inboxes, -, -, hs⟩
  · exact ⟨s.tracker, s.outline, s.inboxes, rfl⟩
  · exact ⟨_, _, inboxes, hs⟩

theorem follows_selectionChanged (cursors : List Span) :
    s.Follows (s.tracker.focus · cursors) (s.selectionChanged cursors) := by
  unfold selectionChanged
  cases h : s.outline with
  | none => exact .inl ⟨h, rfl⟩
  | some o =>
    obtain ⟨hsent, inboxes, hs⟩ := emitChanges_spec { s with
      tracker := (s.tracker.focus o cursors).1
      outline := some (s.tracker.focus o cursors).2.1 } (s.tracker.focus o cursors).2.2 .cursor .focused
    exact .inr ⟨o, inboxes, h, hsent, hs⟩

theorem follows_viewportChanged (visible : Span) :
    s.Follows (s.tracker.view · visible) (s.viewportChanged visible) := by
  unfold viewportChanged
  cases h : s.outline with
  | none => exact .inl ⟨h, rfl⟩
  | some o =>
    obtain ⟨hsent, inboxes, hs⟩ := emitChanges_spec { s with
      tracker := (s.tracker.view o visible).1
      outline := some (s.tracker.view o visible).2.1 } (s.tracker.view o visible).2.2 .viewport .inView
    exact .inr ⟨o, inboxes, h, hsent, hs⟩

theorem diagnosticsChanged_cases (d : Document) (ds : List Diagnostic) :
    (s.outline = none ∨ s.document ≠ some d) ∧
        s.diagnosticsChanged d ds = ([], { s with remembered := some (d, ds) }) ∨
      ∃ o inboxes, s.outline = some o ∧ s.document = some d ∧
        Sent (s.badges.apply o ds).2.2 (s.diagnosticsChanged d ds).1 ∧
        (s.diagnosticsChanged d ds).2 = { s with
          remembered := some (d, ds)
          badges := (s.badges.apply o ds).1
          outline := some (s.badges.apply o ds).2.1
          inboxes } := by
  unfold diagnosticsChanged
  cases ho : s.outline with
  | none => exact .inl ⟨.inl rfl, rfl⟩
  | some o =>
    by_cases hd : s.document = some d
    · right
      by_cases hc : (s.badges.apply o ds).2.2 = []
      · refine ⟨o, s.inboxes, rfl, hd, .inl ⟨hc, ?_⟩, ?_⟩
        · simp [hd, hc]
        · simp [hd, hc]
      · refine ⟨o, s.inboxes.map (· ++ [.update (s.badges.apply o ds).2.2]), rfl, hd,
          .inr ⟨hc, .inl ?_⟩, ?_⟩
        · simp [hd, hc, emit]
        · simp [hd, hc, emit, notify]
    · exact .inl ⟨.inr hd, by simp [hd]⟩

theorem updateDocument_of_isSupported {d : Document} (h : d.isSupported = true) :
    s.step (.updateDocument (some d)) =
      ([], { s with generation := s.generation + 1, document := some d }) := by
  simp [step, updateDocument, h]

theorem updateDocument_cases (document : Option Document) :
    document.any Document.isSupported = false ∧
        (∃ reason, s.step (.updateDocument document) = s.step (.clear reason)) ∨
      ∃ d, document = some d ∧ d.isSupported = true ∧ s.step (.updateDocument document) =
        ([], { s with generation := s.generation + 1, document := some d }) := by
  cases document with
  | none => exact .inl ⟨rfl, .noActiveEditor, rfl⟩
  | some d =>
    by_cases h : d.isSupported
    · exact .inr ⟨d, rfl, h, s.updateDocument_of_isSupported h⟩
    · exact .inl ⟨by simpa using h, .unsupported, by simp [step, updateDocument, h]⟩

/-- A new outline before diagnostics are put down on it: matched entries are expanded as they were
in the old one. -/
def lent (new : Outline) : Outline :=
  match s.outline with
  | none => new
  | some old => Outline.lendExpansion (old.changesTo new).expansion new

theorem install_spec (d : Document) (new : Outline) :
    ∃ shelf inboxes, (s.install d new).2 = { s with
      shelf
      tracker := s.tracker.reset
      badges := (Badges.none.apply (s.lent new) (s.rememberedFor d)).1
      outline := some (Badges.none.apply (s.lent new) (s.rememberedFor d)).2.1
      inboxes } := by
  unfold install lent
  cases s.outline with
  | none => exact ⟨_, _, rfl⟩
  | some old => exact ⟨_, _, rfl⟩

theorem completeRebuild_cases (t : Ticket) (symbols : Forest Symbol) (text : Option TextLines) :
    ¬ s.IsCurrent t ∧ s.completeRebuild t symbols text = ([], s) ∨
      s.IsCurrent t ∧ s.outlineOf symbols text = [] ∧ s.completeRebuild t symbols text =
        { s with marks := s.scan text }.step (.clear .noSymbols) ∨
      s.IsCurrent t ∧ s.outlineOf symbols text ≠ [] ∧ s.completeRebuild t symbols text =
        { s with marks := s.scan text }.install t.document (s.outlineOf symbols text) := by
  unfold completeRebuild
  by_cases hc : s.IsCurrent t
  · by_cases ho : s.outlineOf symbols text = []
    · refine .inr (.inl ⟨hc, ho, ?_⟩)
      unfold outlineOf at ho
      simp [hc, ho, step]
    · refine .inr (.inr ⟨hc, ho, ?_⟩)
      unfold outlineOf at ho ⊢
      simp [hc, ho]
  · exact .inl ⟨hc, by simp [hc]⟩

/-- Fetching symbols brings them at most once, so it comes to a run. -/
theorem exists_run_rebuildWith {World : Type}
    (ask : World → Except String (Forest Symbol) × World) (wait : Delay → World → World)
    (t : Ticket) (text : Option TextLines) (world : World) :
    ∃ es, (s.rebuildWith ask wait t text world).2.2 = (s.run es).2 ∧
      ∀ ms, (s.rebuildWith ask wait t text world).2.1 = .ok ms → ms = (s.run es).1 := by
  have once : ∀ symbols, s.run [.completeRebuild t symbols text] = s.completeRebuild t symbols text := by
    intro symbols
    simp [run, step]
  unfold rebuildWith
  simp only
  split
  · exact ⟨[], rfl, fun ms h => by cases h⟩
  · exact ⟨[], rfl, fun ms h => by cases h; rfl⟩
  · refine ⟨[.completeRebuild t [] text], ?_, fun ms h => ?_⟩
    · rw [once]
    · rw [once]
      exact (Except.ok.inj h).symm
  · rename_i found _
    refine ⟨[.completeRebuild t found text], ?_, fun ms h => ?_⟩
    · rw [once]
    · rw [once]
      exact (Except.ok.inj h).symm

/-! ## What hardly ever changes -/

theorem frame_quiet {e : Event} (h : e.Quiet) : ∃ tracker outline badges remembered inboxes,
    (s.step e).2 = { s with tracker, outline, badges, remembered, inboxes } := by
  have follows : ∀ {move result}, s.Follows move result →
      ∃ tracker outline badges remembered inboxes,
        result.2 = { s with tracker, outline, badges, remembered, inboxes } := by
    intro move result h
    obtain ⟨tracker, outline, inboxes, hs⟩ := h.frame
    exact ⟨tracker, outline, s.badges, s.remembered, inboxes, hs⟩
  cases e with
  | selectionChanged cursors => exact follows (s.follows_selectionChanged cursors)
  | viewportChanged visible => exact follows (s.follows_viewportChanged visible)
  | diagnosticsChanged d ds =>
    rcases s.diagnosticsChanged_cases d ds with ⟨-, hs⟩ | ⟨o, inboxes, -, -, -, hs⟩
    · exact ⟨s.tracker, s.outline, s.badges, some (d, ds), s.inboxes, congrArg Prod.snd hs⟩
    · exact ⟨s.tracker, _, _, _, inboxes, hs⟩
  | setPin pin => exact ⟨_, s.outline, s.badges, s.remembered, s.inboxes, rfl⟩
  | changeDepth delta => exact ⟨s.tracker, s.outline, s.badges, s.remembered, _, rfl⟩
  | attachView => exact ⟨s.tracker, s.outline, s.badges, s.remembered, _, rfl⟩
  | updateDocument document => exact absurd h not_false
  | completeRebuild t symbols text => exact absurd h not_false
  | clear reason => exact absurd h not_false

/-- The settings stay, and what is remembered is the last report. -/
theorem frame_step (e : Event) :
    (s.step e).2.settings = s.settings ∧
      (s.step e).2.remembered = e.report?.or s.remembered := by
  have follows : ∀ {move result}, s.Follows move result →
      result.2.settings = s.settings ∧ result.2.remembered = s.remembered := by
    intro move result h
    obtain ⟨tracker, outline, inboxes, hs⟩ := h.frame
    rw [hs]
    exact ⟨rfl, rfl⟩
  cases e with
  | updateDocument document =>
    rcases s.updateDocument_cases document with ⟨-, reason, hs⟩ | ⟨d, -, -, hs⟩ <;> rw [hs] <;>
      exact ⟨rfl, rfl⟩
  | completeRebuild t symbols text =>
    have := s.completeRebuild_cases t symbols text
    simp only [step]
    rcases this with ⟨-, hs⟩ | ⟨-, -, hs⟩ | ⟨-, -, hs⟩
    · rw [hs]
      exact ⟨rfl, rfl⟩
    · rw [hs]
      exact ⟨rfl, rfl⟩
    · rw [hs]
      obtain ⟨shelf, inboxes, hi⟩ := install_spec { s with marks := s.scan text } t.document
        (s.outlineOf symbols text)
      rw [hi]
      exact ⟨rfl, rfl⟩
  | selectionChanged cursors => exact follows (s.follows_selectionChanged cursors)
  | viewportChanged visible => exact follows (s.follows_viewportChanged visible)
  | diagnosticsChanged d ds =>
    have := s.diagnosticsChanged_cases d ds
    simp only [step]
    rcases this with ⟨-, hs⟩ | ⟨o, inboxes, -, -, -, hs⟩ <;> rw [hs] <;> exact ⟨rfl, rfl⟩
  | setPin pin => exact ⟨rfl, rfl⟩
  | clear reason => exact ⟨rfl, rfl⟩
  | changeDepth delta => exact ⟨rfl, rfl⟩
  | attachView => exact ⟨rfl, rfl⟩

theorem remembered_run (es : List Event) :
    (s.run es).2.remembered = (reports es).getLast?.or s.remembered := by
  induction es generalizing s with
  | nil => rfl
  | cons e es ih =>
    show ((s.step e).2.run es).2.remembered = _
    rw [ih, (s.frame_step e).2]
    unfold reports
    cases h : e.report? with
    | none => rw [List.filterMap_cons_none h]; rfl
    | some r =>
      rw [List.filterMap_cons_some h, List.getLast?_cons]
      cases (List.filterMap Event.report? es).getLast? <;> rfl

/-- The outline of symbols and a text is the same at all times. -/
theorem outlineOf_step (e : Event) (symbols : Forest Symbol) (text : Option TextLines) :
    (s.step e).2.outlineOf symbols text = s.outlineOf symbols text := by
  unfold outlineOf scan
  rw [(s.frame_step e).1]

/-- A run is unambiguous if all outlines are that are made of the symbols and texts in it. -/
theorem AllUnambiguous.of_forall {s : Session} {es : List Event}
    (h : ∀ t symbols text, .completeRebuild t symbols text ∈ es →
      Forest.Distinct (s.outlineOf symbols text)) : s.AllUnambiguous es := by
  induction es generalizing s with
  | nil => trivial
  | cons e es ih =>
    refine ⟨?_, ih fun t symbols text hmem => ?_⟩
    · cases e with
      | completeRebuild t symbols text => exact fun _ => h t symbols text (List.mem_cons_self ..)
      | _ => trivial
    · rw [outlineOf_step]
      exact h t symbols text (List.mem_cons_of_mem _ hmem)

end Session

end SymbolOutline
