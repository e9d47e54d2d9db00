import Mathlib.Algebra.Group.Nat.Defs
import Mathlib.Order.Nat
import SymbolOutline.Proofs.Run

/-
Which tickets of a session are current. The generation of a session counts the events that take the
right to bring an outline away from all earlier tickets (`generation_step`), and a ticket is numbered
by the count at which it was handed out. So the tickets of a run are numbered in the order in which
they were handed out, and the only one that can still be current is the last (`Numbered`).
-/

namespace SymbolOutline.Session

open Rose

variable {s : Session} {e : Event} {t : Ticket}

/-! ## Superseding events -/

/-- The event asks for a rebuild or clears the session. A rebuild clears the session itself if there
is nothing to show. -/
def Supersedes (s : Session) : Event → Prop
  | .updateDocument _ => True
  | .clear _ => True
  | .completeRebuild t symbols text => s.IsCurrent t ∧ s.outlineOf symbols text = []
  | _ => False

instance (s : Session) (e : Event) : Decidable (s.Supersedes e) := by
  cases e <;> unfold Supersedes <;> infer_instance

/-- How many events of a run ask for a rebuild or clear the session. -/
def renewals (s : Session) : List Event → Nat
  | [] => 0
  | e :: es => (if s.Supersedes e then 1 else 0) + (s.step e).2.renewals es

theorem not_supersedes_of_quiet (h : e.Quiet) : ¬ s.Supersedes e := by
  cases e with
  | updateDocument document => exact h.elim
  | completeRebuild t symbols text => exact h.elim
  | clear reason => exact h.elim
  | _ => exact not_false

theorem supersedes_cases (s : Session) (e : Event) :
    s.Supersedes e ∧ (s.step e).2.generation = s.generation + 1 ∨
      ¬ s.Supersedes e ∧ (s.step e).2.generation = s.generation ∧
        (s.step e).2.document = s.document := by
  by_cases hq : e.Quiet
  · obtain ⟨tracker, outline, badges, remembered, inboxes, hs⟩ := s.frame_quiet hq
    right
    rw [hs]
    exact ⟨not_supersedes_of_quiet hq, rfl, rfl⟩
  · cases e with
    | updateDocument document =>
      refine .inl ⟨trivial, ?_⟩
      rcases s.updateDocument_cases document with ⟨-, reason, hs⟩ | ⟨d, -, -, hs⟩
      · rw [hs]; rfl
      · rw [hs]
    | completeRebuild t symbols text =>
      simp only [step, Supersedes]
      rcases s.completeRebuild_cases t symbols text with ⟨hc, hs⟩ | ⟨hc, ho, hs⟩ | ⟨hc, ho, hs⟩
      · right
        rw [hs]
        exact ⟨fun h => hc h.1, rfl, rfl⟩
      · left
        rw [hs]
        exact ⟨⟨hc, ho⟩, rfl⟩
      · right
        obtain ⟨shelf, inboxes, hi⟩ := install_spec { s with marks := s.scan text } t.document
          (s.outlineOf symbols text)
        rw [hs, hi]
        exact ⟨fun h => ho h.2, rfl, rfl⟩
    | clear reason => exact .inl ⟨trivial, rfl⟩
    | _ => exact absurd trivial hq

theorem generation_step (s : Session) (e : Event) :
    (s.step e).2.generation = s.generation + if s.Supersedes e then 1 else 0 := by
  rcases s.supersedes_cases e with ⟨he, hg⟩ | ⟨he, hg, -⟩
  · rw [if_pos he, hg]
  · rw [if_neg he, hg, Nat.add_zero]

theorem generation_run (s : Session) (es : List Event) :
    (s.run es).2.generation = s.generation + s.renewals es := by
  induction es generalizing s with
  | nil => rfl
  | cons e es ih =>
    show ((s.step e).2.run es).2.generation = _
    rw [ih, generation_step, renewals, Nat.add_assoc]

/-- A ticket that has had its turn never is current again. -/
theorem not_isCurrent_run (h : t.generation < s.generation) (es : List Event) :
    ¬ (s.run es).2.IsCurrent t := by
  unfold IsCurrent
  rw [generation_run]
  omega

/-! ## The tickets of a run -/

/-- The ticket that an event makes the session hand out. -/
def ticket? (s : Session) : Event → Option Ticket
  | .updateDocument document =>
    match (s.updateDocument document).1 with
    | .rebuild t => some t
    | .cleared _ => none
  | _ => none

/-- The tickets handed out along a run, in order. -/
def tickets (s : Session) : List Event → List Ticket
  | [] => []
  | e :: es => (s.ticket? e).toList ++ (s.step e).2.tickets es

theorem of_ticket? (h : s.ticket? e = some t) :
    s.Supersedes e ∧ (s.step e).2.generation = t.generation ∧
      (s.step e).2.document = some t.document := by
  cases e with
  | updateDocument document =>
    cases document with
    | none => cases h
    | some d =>
      by_cases hd : d.isSupported = true
      · have ht : some ⟨d, s.generation + 1⟩ = some t := by
          rw [← h]
          simp [ticket?, updateDocument, hd]
        rw [s.updateDocument_of_isSupported hd, ← Option.some.inj ht]
        exact ⟨trivial, rfl, rfl⟩
      · simp [ticket?, updateDocument, hd] at h
  | _ => simp [ticket?] at h

/-- Tickets are numbered in the order in which they were handed out, none beyond the generation of
the session; the one with the number of the generation is for the document that is tracked. -/
structure Numbered (s : Session) (ts : List Ticket) : Prop where
  increasing : ts.Pairwise fun t t' => t.generation < t'.generation
  bounded : ∀ t ∈ ts, t.generation ≤ s.generation
  tracked : ∀ t ∈ ts, s.IsCurrent t → s.document = some t.document

theorem Numbered.step {ts : List Ticket} (h : s.Numbered ts) (e : Event) :
    (s.step e).2.Numbered (ts ++ (s.ticket? e).toList) := by
  cases ht : s.ticket? e with
  | none =>
    rw [Option.toList_none, List.append_nil]
    rcases s.supersedes_cases e with ⟨-, hg⟩ | ⟨-, hg, hd⟩
    · refine ⟨h.increasing, fun t hmem => ?_, fun t hmem hc => ?_⟩
      · have := h.bounded t hmem
        omega
      · -- the generation has gone past every ticket
        have := h.bounded t hmem
        unfold IsCurrent at hc
        omega
    · refine ⟨h.increasing, fun t hmem => hg ▸ h.bounded t hmem, fun t hmem hc => ?_⟩
      unfold IsCurrent at hc
      rw [hg] at hc
      rw [hd]
      exact h.tracked t hmem hc
  | some new =>
    obtain ⟨hsup, hg, hd⟩ := of_ticket? ht
    have hnew : new.generation = s.generation + 1 := by
      rw [← hg, generation_step, if_pos hsup]
    have hold : ∀ t ∈ ts, t.generation < new.generation := by
      intro t hmem
      have := h.bounded t hmem
      omega
    rw [Option.toList_some]
    constructor
    · rw [List.pairwise_append]
      refine ⟨h.increasing, List.pairwise_singleton _ _, fun t hmem t' hmem' => ?_⟩
      rw [List.mem_singleton.1 hmem']
      exact hold t hmem
    · intro t hmem
      rw [hg]
      rcases List.mem_append.1 hmem with hmem | hmem
      · exact (hold t hmem).le
      · rw [List.mem_singleton.1 hmem]
    · intro t hmem hc
      unfold IsCurrent at hc
      rcases List.mem_append.1 hmem with hmem | hmem
      · have := hold t hmem
        omega
      · rw [List.mem_singleton.1 hmem]
        exact hd

theorem Numbered.run {ts : List Ticket} (h : s.Numbered ts) (es : List Event) :
    (s.run es).2.Numbered (ts ++ s.tickets es) := by
  induction es generalizing s ts with
  | nil =>
    rw [tickets, List.append_nil]
    exact h
  | cons e es ih =>
    rw [tickets, ← List.append_assoc]
    exact ih (h.step e)

/-- Numbers increase, so a ticket that has the greatest number there can be is the last one. -/
theorem Numbered.getLast?_eq {ts : List Ticket} (h : s.Numbered ts) (hmem : t ∈ ts)
    (hc : s.IsCurrent t) : ts.getLast? = some t := by
  obtain ⟨pre, post, rfl⟩ := List.append_of_mem hmem
  have hincreasing := h.increasing
  rw [List.pairwise_append, List.pairwise_cons] at hincreasing
  cases post with
  | nil => simp
  | cons t' post =>
    have hafter := hincreasing.2.1.1 t' (List.mem_cons_self ..)
    have hbound := h.bounded t' (by simp)
    unfold IsCurrent at hc
    omega

theorem numbered_nil (s : Session) : s.Numbered [] :=
  ⟨.nil, fun _ h => absurd h List.not_mem_nil, fun _ h => absurd h List.not_mem_nil⟩

theorem Fresh.generation_eq (h : s.Fresh) : s.generation = 0 := by
  obtain ⟨settings, s₀, hs₀, hs⟩ := h
  unfold Session.new at hs₀
  split at hs₀
  · cases hs₀
  · cases hs₀
    rw [hs]

/-! ## The right to bring an outline -/

/-- Who may bring an outline to a session that has handed out tickets. -/
structure Fenced (s : Session) (ts : List Ticket) : Prop where
  nodup : ts.Nodup
  /-- Only the last ticket can be current, and it is for the document that is tracked. -/
  last : ∀ t ∈ ts, s.IsCurrent t → ts.getLast? = some t ∧ s.document = some t.document
  /-- Numbers of tickets may be compared as 64-bit words. -/
  word : ∀ t ∈ ts, UInt64.ofNat t.generation = UInt64.ofNat s.generation ↔ s.IsCurrent t
  /-- A ticket is current when it is handed out, -/
  handed : ∀ e t, s.ticket? e = some t → (s.step e).2.IsCurrent t
  /-- it stays current as long as nothing supersedes it, -/
  kept : ∀ e, ¬ s.Supersedes e → ∀ t ∈ ts, (s.step e).2.IsCurrent t ↔ s.IsCurrent t
  /-- and then it is current no more, whatever happens later. -/
  superseded : ∀ e, s.Supersedes e → ∀ t ∈ ts, ∀ later, ¬ ((s.step e).2.run later).2.IsCurrent t
  /-- A ticket that is not current does nothing at all. -/
  ignored : ∀ t symbols text, ¬ s.IsCurrent t → s.completeRebuild t symbols text = ([], s)

/-- After every run with fewer than 2^64 requests and clears, the right to bring an outline is with
the ticket handed out last, or with none. -/
theorem fenced_run (h : s.Fresh) (es : List Event) (hfew : s.renewals es < 2 ^ 64) :
    (s.run es).2.Fenced (s.tickets es) := by
  have hn : (s.run es).2.Numbered (s.tickets es) := by
    have := (numbered_nil s).run es
    rwa [List.nil_append] at this
  have hg : (s.run es).2.generation < UInt64.size := by
    rw [generation_run, h.generation_eq, Nat.zero_add]
    exact hfew
  constructor
  · exact hn.increasing.imp fun {t t'} hlt heq => absurd (heq ▸ hlt) (lt_irrefl _)
  · intro t ht hc
    exact ⟨hn.getLast?_eq ht hc, hn.tracked t ht hc⟩
  · intro t ht
    have hle := hn.bounded t ht
    unfold IsCurrent
    rw [← UInt64.toNat_inj, UInt64.toNat_ofNat_of_lt' (lt_of_le_of_lt hle hg),
      UInt64.toNat_ofNat_of_lt' hg]
  · intro e t ht
    exact (of_ticket? ht).2.1.symm
  · intro e he t _
    rcases supersedes_cases _ e with ⟨hsup, -⟩ | ⟨-, hgen, -⟩
    · exact absurd hsup he
    · unfold IsCurrent
      rw [hgen]
  · intro e he t ht later
    refine not_isCurrent_run ?_ later
    rw [generation_step, if_pos he]
    exact Nat.lt_succ_of_le (hn.bounded t ht)
  · intro t symbols text hc
    rcases completeRebuild_cases _ t symbols text with ⟨-, hs⟩ | ⟨hc', -⟩ | ⟨hc', -⟩
    · exact hs
    · exact absurd hc' hc
    · exact absurd hc' hc

/-- Of two tickets for one document the first is completed late, and then the second brings nothing
to show. -/
theorem fenced_run_overtaken :
    let d : Document := ⟨"file:a"⟩
    let leaf : Rose Symbol := node ⟨⟨.function, "f"⟩, none, .ofLines 0 9, .ofLines 0 0⟩ []
    let es : List Event := [
      .updateDocument (some d),
      .updateDocument (some d),
      .completeRebuild ⟨d, 1⟩ [leaf] none,
      .completeRebuild ⟨d, 2⟩ [] none]
    standard.Fresh ∧ standard.renewals es < 2 ^ 64 ∧
      (standard.run es).2.Fenced (standard.tickets es) := by
  intro d leaf es
  have hfew : standard.renewals es < 2 ^ 64 := by
    simp only [es, renewals, updateDocument_of_isSupported _ (show d.isSupported = true by decide)]
    decide +kernel
  exact ⟨fresh_standard, hfew, fenced_run fresh_standard es hfew⟩

end SymbolOutline.Session
