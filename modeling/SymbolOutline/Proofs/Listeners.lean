import SymbolOutline.Proofs.Run

/-
What listeners hear. A session sends its messages from several places, and one operation may send
two of them or clear the session on the way; but whatever is sent is also returned, once and in the
same order (`delivers_operate`). So a listener has heard all that was returned since it came, and
nothing else (`heard_perform`).
-/

namespace SymbolOutline

/-- A provider of symbols and the world it lives in, as it is when a fetch begins. -/
structure Provider where
  World : Type
  ask : World → Except String (Forest Symbol) × World
  wait : Delay → World → World
  world : World

/-- Something that a host does with a session. -/
inductive Operation where
  | event (e : Event)
  /-- The symbols for a ticket are fetched from a provider and brought. -/
  | rebuildWith (provider : Provider) (ticket : Ticket) (text : Option TextLines)
  /-- There is a new listener. -/
  | subscribe

/-- What a new listener has heard. -/
def Operation.inboxes : Operation → List (List Message)
  | .subscribe => [[]]
  | _ => []

namespace Session

/-- What an operation returns, and the session after it. -/
def operate (s : Session) : Operation → Except FetchError (List Message) × Session
  | .event e =>
    let (messages, s) := s.step e
    (.ok messages, s)
  | .rebuildWith provider ticket text =>
    (s.rebuildWith provider.ask provider.wait ticket text provider.world).2
  | .subscribe => (.ok [], s.subscribe)

/-- The messages that are returned; a failure returns none. -/
def returned : Except FetchError (List Message) → List Message
  | .ok messages => messages
  | .error _ => []

/-- What a run of operations returns, and the session after it. -/
def perform (s : Session) : List Operation → List Message × Session
  | [] => ([], s)
  | op :: ops =>
    let (outcome, s) := s.operate op
    let (later, s) := s.perform ops
    (returned outcome ++ later, s)

variable {s s' : Session}

/-! ## What is returned is heard -/

/-- All listeners of a session hear what is returned. -/
def Delivers (s : Session) (result : List Message × Session) : Prop :=
  result.2.inboxes = s.inboxes.map (· ++ result.1)

theorem delivers_nil (h : s'.inboxes = s.inboxes) : s.Delivers ([], s') := by
  simp [Delivers, h]

theorem Delivers.append {ms : List Message} {result : List Message × Session}
    (h : s.Delivers (ms, s')) (h' : s'.Delivers result) : s.Delivers (ms ++ result.1, result.2) := by
  unfold Delivers at *
  rw [h', h, List.map_map]
  simp [Function.comp_def, List.append_assoc]

/-- Sending may come after changes to all else. -/
theorem delivers_emit (h : s'.inboxes = s.inboxes) (m : Message) : s.Delivers (s'.emit m) := by
  show (s'.notify m).inboxes = _
  rw [notify, h]
  rfl

theorem delivers_emitChanges (h : s'.inboxes = s.inboxes) (cs : List Change) (cause : Follow)
    (target : ScrollTarget) : s.Delivers (s'.emitChanges cs cause target) := by
  have first := delivers_emit h (.update cs)
  unfold emitChanges
  split
  · exact delivers_nil h
  · simp only
    split
    · exact first.append (delivers_emit rfl (.scroll target))
    · exact first

theorem delivers_clear (h : s'.inboxes = s.inboxes) (reason : Absence) :
    s.Delivers (s'.step (.clear reason)) := by
  show (s'.inboxes.map _) = _
  rw [h]
  rfl

theorem delivers_install (h : s'.inboxes = s.inboxes) (d : Document) (new : Outline) :
    s.Delivers (s'.install d new) := by
  unfold install
  cases s'.outline with
  | none => exact delivers_emit h _
  | some old => exact delivers_emit h _

theorem delivers_completeRebuild (s : Session) (t : Ticket) (symbols : Forest Symbol)
    (text : Option TextLines) : s.Delivers (s.completeRebuild t symbols text) := by
  rcases s.completeRebuild_cases t symbols text with ⟨-, hs⟩ | ⟨-, -, hs⟩ | ⟨-, -, hs⟩
  · rw [hs]
    exact delivers_nil rfl
  · rw [hs]
    exact delivers_clear rfl .noSymbols
  · rw [hs]
    exact delivers_install rfl t.document _

theorem delivers_diagnosticsChanged (s : Session) (d : Document) (ds : List Diagnostic) :
    s.Delivers (s.diagnosticsChanged d ds) := by
  unfold diagnosticsChanged
  cases s.outline with
  | none => exact delivers_nil rfl
  | some o =>
    simp only
    split
    · exact delivers_nil rfl
    · split
      · exact delivers_nil rfl
      · exact delivers_emit rfl _

theorem delivers_step (s : Session) (e : Event) : s.Delivers (s.step e) := by
  cases e with
  | updateDocument document =>
    rcases s.updateDocument_cases document with ⟨-, reason, hs⟩ | ⟨d, -, -, hs⟩
    · rw [hs]
      exact delivers_clear rfl reason
    · rw [hs]
      exact delivers_nil rfl
  | completeRebuild t symbols text => exact s.delivers_completeRebuild t symbols text
  | selectionChanged cursors =>
    simp only [step, selectionChanged]
    split
    · exact delivers_nil rfl
    · exact delivers_emitChanges rfl _ _ _
  | viewportChanged visible =>
    simp only [step, viewportChanged]
    split
    · exact delivers_nil rfl
    · exact delivers_emitChanges rfl _ _ _
  | diagnosticsChanged d ds => exact s.delivers_diagnosticsChanged d ds
  | setPin pin => exact delivers_nil rfl
  | clear reason => exact delivers_clear rfl reason
  | changeDepth delta => exact delivers_emit rfl _
  | attachView => exact delivers_emit rfl _

/-- A fetch that fails or is superseded leaves the session as it is; any other brings symbols. -/
theorem delivers_rebuildWith (s : Session) (p : Provider) (t : Ticket) (text : Option TextLines) :
    s.Delivers (returned (s.rebuildWith p.ask p.wait t text p.world).2.1,
      (s.rebuildWith p.ask p.wait t text p.world).2.2) := by
  unfold rebuildWith
  simp only
  split
  · exact delivers_nil rfl
  · exact delivers_nil rfl
  · exact s.delivers_completeRebuild t [] text
  · exact s.delivers_completeRebuild t _ text

/-- Whoever listens hears what an operation returns, and a new listener has heard nothing yet. -/
theorem delivers_operate (s : Session) (op : Operation) :
    (s.operate op).2.inboxes =
      s.inboxes.map (· ++ returned (s.operate op).1) ++ op.inboxes := by
  cases op with
  | event e => exact (s.delivers_step e).trans (List.append_nil _).symm
  | rebuildWith p t text => exact (s.delivers_rebuildWith p t text).trans (List.append_nil _).symm
  | subscribe => simp [operate, subscribe, returned, Operation.inboxes]

/-! ## Along a run -/

theorem perform_append (s : Session) (ops more : List Operation) :
    s.perform (ops ++ more) =
      ((s.perform ops).1 ++ ((s.perform ops).2.perform more).1, ((s.perform ops).2.perform more).2) := by
  induction ops generalizing s with
  | nil => rfl
  | cons op ops ih => simp [perform, ih]

/-- What the listeners that come during a run hear: all that is returned from then on. -/
def hearings (s : Session) : List Operation → List (List Message)
  | [] => []
  | op :: ops =>
    op.inboxes.map (· ++ ((s.operate op).2.perform ops).1) ++ (s.operate op).2.hearings ops

theorem length_hearings (s : Session) (ops : List Operation) :
    (s.hearings ops).length = (ops.flatMap Operation.inboxes).length := by
  induction ops generalizing s with
  | nil => rfl
  | cons op ops ih => simp [hearings, ih]

theorem inboxes_perform (s : Session) (ops : List Operation) :
    (s.perform ops).2.inboxes = s.inboxes.map (· ++ (s.perform ops).1) ++ s.hearings ops := by
  induction ops generalizing s with
  | nil => simp [perform, hearings]
  | cons op ops ih =>
    show ((s.operate op).2.perform ops).2.inboxes = _
    rw [ih, delivers_operate]
    simp [perform, hearings, Function.comp_def, List.append_assoc]

/-- What has been heard after a run of operations. -/
structure Heard (s : Session) (ops : List Operation) : Prop where
  /-- Who was there before has heard all that was returned, -/
  earlier : ∀ (n : Nat) (inbox : List Message), s.inboxes[n]? = some inbox →
    (s.perform ops).2.inboxes[n]? = some (inbox ++ (s.perform ops).1)
  /-- who came later has heard all that was returned from then on, -/
  since : ∀ before after, ops = before ++ .subscribe :: after →
    (s.perform ops).2.inboxes[(s.perform before).2.inboxes.length]? =
      some ((s.perform before).2.subscribe.perform after).1
  /-- there are no other listeners, -/
  count : (s.perform ops).2.inboxes.length =
    s.inboxes.length + (ops.flatMap Operation.inboxes).length
  /-- and of an operation that fails or returns no messages nobody hears. -/
  silent : ∀ op, returned ((s.perform ops).2.operate op).1 = [] →
    ∀ (n : Nat) (inbox : List Message), (s.perform ops).2.inboxes[n]? = some inbox →
      ((s.perform ops).2.operate op).2.inboxes[n]? = some inbox

theorem getElem?_inboxes_perform {n : Nat} {inbox : List Message} (h : s.inboxes[n]? = some inbox)
    (ops : List Operation) :
    (s.perform ops).2.inboxes[n]? = some (inbox ++ (s.perform ops).1) := by
  obtain ⟨hn, -⟩ := List.getElem?_eq_some_iff.1 h
  rw [inboxes_perform, List.getElem?_append_left (by rwa [List.length_map]), List.getElem?_map, h]
  rfl

/-- Every listener hears the messages that are returned from its registration on, each once and in the
order in which they are returned. -/
theorem heard_perform (s : Session) (ops : List Operation) : s.Heard ops where
  earlier _ _ h := getElem?_inboxes_perform h ops
  since before after hops := by
    have hnew : (s.perform before).2.subscribe.inboxes[(s.perform before).2.inboxes.length]? =
        some [] := by
      simp [subscribe]
    have hafter := getElem?_inboxes_perform hnew after
    rw [hops, perform_append]
    exact hafter
  count := by
    rw [inboxes_perform, List.length_append, List.length_map, length_hearings]
  silent op hop n inbox h := by
    obtain ⟨hn, -⟩ := List.getElem?_eq_some_iff.1 h
    rw [delivers_operate, hop, List.getElem?_append_left (by rwa [List.length_map]),
      List.getElem?_map, h]
    simp

end Session

end SymbolOutline
