import Mathlib.Data.List.Induction
import SymbolOutline.Proofs.Run

/-
What the shelf holds after a run. As long as there is room, the shelf has for each document the
bookmarks that were set last (`get?_setAll`). A session sets the bookmarks of the outlines that it
installs and of no others (`shelf_run`): a rebuild that leaves nothing to show clears the session,
but the bookmarks of the document stay as they were.
-/

namespace SymbolOutline

open Rose Outline

namespace Shelf

variable {s : Shelf} {uri other : String} {b : Forest Item}

/-! ## One document -/

theorem get?_erase_self (s : Shelf) (uri : String) : (s.erase uri).get? uri = none := by
  simp [erase, get?]

theorem get?_erase_of_ne (s : Shelf) (h : other ≠ uri) : (s.erase uri).get? other = s.get? other := by
  unfold get? erase
  rw [List.find?_filter]
  congr 2
  funext e
  by_cases he : e.1 = other
  · simp [he, h]
  · simp [he]

/-- What the shelf has for a document whose bookmarks were set: nothing, if there are none. -/
def entry? (b : Forest Item) : Option (Forest Item) := if b = [] then none else some b

theorem entry?_eq_none : entry? b = none ↔ b = [] := by
  unfold entry?
  split <;> simp_all

theorem get?_set_self (h : 0 < s.capacity) (uri : String) (b : Forest Item) :
    (s.set uri b).get? uri = entry? b := by
  unfold set entry?
  split
  · exact s.get?_erase_self uri
  · obtain ⟨n, hn⟩ : ∃ n, s.capacity = n + 1 := ⟨s.capacity - 1, by omega⟩
    simp [get?, hn]

/-- One document more than there are without this one fits on the shelf. -/
def HasRoom (s : Shelf) (uri : String) : Prop := (s.erase uri).size < s.capacity

instance (s : Shelf) (uri : String) : Decidable (s.HasRoom uri) := inferInstanceAs (Decidable (_ < _))

theorem get?_set_of_ne (hroom : b ≠ [] → s.HasRoom uri) (h : other ≠ uri) :
    (s.set uri b).get? other = s.get? other := by
  have herase := s.get?_erase_of_ne h
  unfold set
  split
  · exact herase
  · rename_i hb
    have hall : ((uri, b) :: (s.erase uri).entries).take s.capacity = (uri, b) :: (s.erase uri).entries :=
      List.take_of_length_le (hroom hb)
    rw [hall, ← herase]
    simp [get?, h.symm]

/-! ## One document after the other -/

/-- Sets the bookmarks of documents, one after the other. -/
def setAll (s : Shelf) (filed : List (String × Forest Item)) : Shelf :=
  filed.foldl (fun s f => s.set f.1 f.2) s

/-- No document has to go when bookmarks are set, one document after the other. -/
def Spacious (s : Shelf) : List (String × Forest Item) → Prop
  | [] => True
  | f :: filed => (f.2 ≠ [] → s.HasRoom f.1) ∧ (s.set f.1 f.2).Spacious filed

/-- Whether there is room is decided document by document. -/
def decSpacious (s : Shelf) : (filed : List (String × Forest Item)) → Decidable (s.Spacious filed)
  | [] => isTrue trivial
  | f :: filed =>
    haveI := decSpacious (s.set f.1 f.2) filed
    inferInstanceAs (Decidable ((f.2 ≠ [] → s.HasRoom f.1) ∧ (s.set f.1 f.2).Spacious filed))

instance (s : Shelf) (filed : List (String × Forest Item)) : Decidable (s.Spacious filed) :=
  s.decSpacious filed

/-- The bookmarks that were set last for a document; none if no bookmarks were set for it. -/
def lastFiled (uri : String) (filed : List (String × Forest Item)) : Forest Item :=
  ((filed.filter fun f => f.1 = uri).getLast?.map Prod.snd).getD []

theorem lastFiled_concat (uri : String) (filed : List (String × Forest Item))
    (f : String × Forest Item) :
    lastFiled uri (filed ++ [f]) = if f.1 = uri then f.2 else lastFiled uri filed := by
  unfold lastFiled
  by_cases hf : f.1 = uri <;> simp [hf]

theorem setAll_concat (s : Shelf) (filed : List (String × Forest Item)) (f : String × Forest Item) :
    s.setAll (filed ++ [f]) = (s.setAll filed).set f.1 f.2 := by
  simp [setAll]

theorem spacious_concat {filed : List (String × Forest Item)} {f : String × Forest Item} :
    s.Spacious (filed ++ [f]) ↔
      s.Spacious filed ∧ (f.2 ≠ [] → (s.setAll filed).HasRoom f.1) := by
  induction filed generalizing s with
  | nil => simp [Spacious, setAll]
  | cons g filed ih =>
    rw [List.cons_append, Spacious, Spacious, ih, and_assoc]
    rfl

theorem capacity_setAll (s : Shelf) (filed : List (String × Forest Item)) :
    (s.setAll filed).capacity = s.capacity := by
  induction filed generalizing s with
  | nil => rfl
  | cons f filed ih => exact (ih _).trans (s.capacity_set f.1 f.2)

theorem capacity_setAll_empty_pos (capacity : Nat) (filed : List (String × Forest Item)) :
    0 < ((empty capacity).setAll filed).capacity := by
  rw [capacity_setAll]
  exact Nat.lt_of_lt_of_le Nat.one_pos (Nat.le_max_right ..)

/-- A shelf that starts empty and is large enough has the bookmarks that were set last. -/
theorem get?_setAll {capacity : Nat} {filed : List (String × Forest Item)}
    (hroom : (empty capacity).Spacious filed) (uri : String) :
    ((empty capacity).setAll filed).get? uri = entry? (lastFiled uri filed) := by
  induction filed using List.reverseRecOn with
  | nil => rfl
  | append_singleton filed f ih =>
    obtain ⟨hroom, hf⟩ := spacious_concat.1 hroom
    rw [setAll_concat, lastFiled_concat]
    split
    · rename_i hu
      rw [← hu]
      exact get?_set_self (capacity_setAll_empty_pos capacity filed) f.1 f.2
    · rename_i hu
      rw [get?_set_of_ne hf (Ne.symm hu)]
      exact ih hroom

end Shelf

namespace Session

variable {s : Session} {t : Ticket}

/-! ## The shelf of a session -/

/-- The bookmarks that an event makes the session set, with the document they are of: those of a
new outline, if there is anything to show. -/
def filing? (s : Session) : Event → Option (String × Forest Item)
  | .completeRebuild t symbols text =>
    if s.IsCurrent t ∧ s.outlineOf symbols text ≠ [] then
      some (t.document.uri, bookmarks (s.outlineOf symbols text))
    else none
  | _ => none

/-- The bookmarks that are set along a run, in order. -/
def filings (s : Session) : List Event → List (String × Forest Item)
  | [] => []
  | e :: es => (s.filing? e).toList ++ (s.step e).2.filings es

theorem shelf_install (s : Session) (d : Document) (new : Outline) :
    (s.install d new).2.shelf = s.shelf.map fun shelf => shelf.set d.uri (bookmarks new) := by
  unfold install
  cases s.outline <;> rfl

theorem filing?_of_quiet {e : Event} (h : e.Quiet) : s.filing? e = none := by
  cases e with
  | completeRebuild t symbols text => exact h.elim
  | _ => rfl

theorem shelf_step (s : Session) (e : Event) :
    (s.step e).2.shelf = s.shelf.map fun shelf => shelf.setAll (s.filing? e).toList := by
  have same : ∀ shelf : Option Shelf,
      shelf = shelf.map fun shelf => shelf.setAll (none : Option (String × Forest Item)).toList := by
    intro shelf
    cases shelf <;> rfl
  by_cases hq : e.Quiet
  · obtain ⟨tracker, outline, badges, remembered, inboxes, hs⟩ := s.frame_quiet hq
    rw [hs, filing?_of_quiet hq]
    exact same _
  · cases e with
    | completeRebuild t symbols text =>
      simp only [step, filing?]
      rcases s.completeRebuild_cases t symbols text with ⟨hc, hs⟩ | ⟨-, ho, hs⟩ | ⟨hc, ho, hs⟩
      · rw [hs, if_neg fun h => hc h.1]
        exact same _
      · -- the session is cleared, and the shelf is left alone
        rw [hs, if_neg fun h => h.2 ho]
        exact same _
      · rw [hs, if_pos ⟨hc, ho⟩, shelf_install]
        rfl
    | updateDocument document =>
      rcases s.updateDocument_cases document with ⟨-, reason, hs⟩ | ⟨d, -, -, hs⟩
      · rw [hs]
        exact same _
      · rw [hs]
        exact same _
    | clear reason => exact same _
    | _ => exact absurd trivial hq

theorem shelf_run (s : Session) (es : List Event) :
    (s.run es).2.shelf = s.shelf.map fun shelf => shelf.setAll (s.filings es) := by
  induction es generalizing s with
  | nil =>
    show s.shelf = _
    cases s.shelf <;> rfl
  | cons e es ih =>
    show ((s.step e).2.run es).2.shelf = _
    rw [ih, shelf_step, Option.map_map]
    congr 1
    funext shelf
    exact (List.foldl_append ..).symm

theorem shelf_completeRebuild_of_eq_nil {symbols : Forest Symbol} {text : Option TextLines}
    (h : s.outlineOf symbols text = []) : (s.completeRebuild t symbols text).2.shelf = s.shelf := by
  have hstep := s.shelf_step (.completeRebuild t symbols text)
  have hfiling : s.filing? (.completeRebuild t symbols text) = none := if_neg fun hc => hc.2 h
  rw [hfiling] at hstep
  cases hshelf : s.shelf <;> simpa [hshelf, step, Shelf.setAll] using hstep

/-- After a rebuild the shelf has the bookmarks of the new outline, if there is anything to show;
else it still has those of the outline that the document had before. -/
theorem get?_completeRebuild {capacity : Nat} (hs : s.shelf = some (.empty capacity))
    (es : List Event) (hroom : (Shelf.empty capacity).Spacious (s.filings es))
    (hc : (s.run es).2.IsCurrent t) (symbols : Forest Symbol) (text : Option TextLines) :
    ∃ shelf, ((s.run es).2.completeRebuild t symbols text).2.shelf = some shelf ∧
      shelf.get? t.document.uri = Shelf.entry?
        (if (s.run es).2.outlineOf symbols text = [] then
          Shelf.lastFiled t.document.uri (s.filings es)
        else bookmarks ((s.run es).2.outlineOf symbols text)) ∧
      (shelf.get? t.document.uri = Shelf.entry? (bookmarks ((s.run es).2.outlineOf symbols text)) ↔
        (s.run es).2.outlineOf symbols text ≠ [] ∨
          Shelf.lastFiled t.document.uri (s.filings es) = []) := by
  have hbefore : (s.run es).2.shelf = some ((Shelf.empty capacity).setAll (s.filings es)) := by
    rw [shelf_run, hs]
    rfl
  by_cases ho : (s.run es).2.outlineOf symbols text = []
  · have hget := Shelf.get?_setAll hroom t.document.uri
    refine ⟨_, (shelf_completeRebuild_of_eq_nil ho).trans hbefore, ?_⟩
    rw [if_pos ho, ho]
    refine ⟨hget, ?_⟩
    rw [hget]
    show Shelf.entry? _ = none ↔ _
    rw [Shelf.entry?_eq_none]
    simp
  · have hafter := shelf_step (s.run es).2 (.completeRebuild t symbols text)
    have hfiling : (s.run es).2.filing? (.completeRebuild t symbols text) =
        some (t.document.uri, bookmarks ((s.run es).2.outlineOf symbols text)) := if_pos ⟨hc, ho⟩
    have hget := Shelf.get?_set_self (Shelf.capacity_setAll_empty_pos capacity (s.filings es))
      t.document.uri (bookmarks ((s.run es).2.outlineOf symbols text))
    rw [hbefore, hfiling] at hafter
    refine ⟨_, hafter, ?_⟩
    rw [if_neg ho]
    exact ⟨hget, fun _ => .inl ho, fun _ => hget⟩

/-- The text of a document loses its only mark, and then there is nothing to show. -/
theorem get?_completeRebuild_emptied :
    let d : Document := ⟨"file:a"⟩
    let mark : Rose Symbol :=
      node ⟨⟨.number, "api"⟩, some "__outline_region__", .ofLines 0 9, .ofLines 0 0⟩ []
    let s : Session := { standard with shelf := some (.empty 1) }
    let es : List Event := [
      .updateDocument (some d),
      .completeRebuild ⟨d, 1⟩ [mark] none,
      .updateDocument (some d)]
    s.shelf = some (.empty 1) ∧ (Shelf.empty 1).Spacious (s.filings es) ∧
      (s.run es).2.IsCurrent ⟨d, 2⟩ ∧
      ∃ shelf, ((s.run es).2.completeRebuild ⟨d, 2⟩ [] none).2.shelf = some shelf ∧
        shelf.get? "file:a" = Shelf.entry?
          (if (s.run es).2.outlineOf [] none = [] then Shelf.lastFiled "file:a" (s.filings es)
          else bookmarks ((s.run es).2.outlineOf [] none)) ∧
        (shelf.get? "file:a" = Shelf.entry? (bookmarks ((s.run es).2.outlineOf [] none)) ↔
          (s.run es).2.outlineOf [] none ≠ [] ∨ Shelf.lastFiled "file:a" (s.filings es) = []) := by
  intro d mark s es
  have hd : d.isSupported = true := by decide
  have hroom : (Shelf.empty 1).Spacious (s.filings es) := by
    simp only [es, filings, updateDocument_of_isSupported _ hd]
    decide +kernel
  have hc : (s.run es).2.IsCurrent ⟨d, 2⟩ := by
    simp only [es, run, updateDocument_of_isSupported _ hd]
    decide +kernel
  exact ⟨rfl, hroom, hc, get?_completeRebuild (t := ⟨d, 2⟩) rfl es hroom hc [] none⟩

/-- Bookmarks of an outline that is gone stay on the shelf when the document has nothing to show. -/
theorem get?_left_behind :
    let d : Document := ⟨"file:a"⟩
    let mark : Rose Symbol :=
      node ⟨⟨.number, "api"⟩, some "__outline_region__", .ofLines 0 9, .ofLines 0 0⟩ []
    let s : Session := { standard with shelf := some (.empty 1) }
    let es : List Event := [
      .updateDocument (some d),
      .completeRebuild ⟨d, 1⟩ [mark] none,
      .updateDocument (some d)]
    s.Fresh ∧ (Shelf.empty 1).Spacious (s.filings es) ∧ (s.run es).2.IsCurrent ⟨d, 2⟩ ∧
      ¬ ∃ shelf, ((s.run es).2.completeRebuild ⟨d, 2⟩ [] none).2.shelf = some shelf ∧
        shelf.get? "file:a" = Shelf.entry? (bookmarks ((s.run es).2.outlineOf [] none)) := by
  intro d mark s es
  have hd : d.isSupported = true := by decide
  have hroom : (Shelf.empty 1).Spacious (s.filings es) := by
    simp only [es, filings, updateDocument_of_isSupported _ hd]
    decide +kernel
  have hc : (s.run es).2.IsCurrent ⟨d, 2⟩ := by
    simp only [es, run, updateDocument_of_isSupported _ hd]
    decide +kernel
  have hnothing : (s.run es).2.outlineOf [] none = [] := by
    simp only [es, run, updateDocument_of_isSupported _ hd]
    decide +kernel
  have hleft : Shelf.lastFiled "file:a" (s.filings es) ≠ [] := by
    simp only [es, filings, updateDocument_of_isSupported _ hd]
    decide +kernel
  refine ⟨⟨.standard, standard, rfl, rfl⟩, hroom, hc, ?_⟩
  rintro ⟨shelf, hs, heq⟩
  rw [shelf_completeRebuild_of_eq_nil hnothing, shelf_run] at hs
  obtain rfl : (Shelf.empty 1).setAll (s.filings es) = shelf := Option.some.inj hs
  rw [Shelf.get?_setAll hroom, hnothing] at heq
  exact hleft (Shelf.entry?_eq_none.1 heq)

end Session

end SymbolOutline
