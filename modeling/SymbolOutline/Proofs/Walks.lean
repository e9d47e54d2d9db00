import Mathlib.Data.List.Infix
import SymbolOutline.Proofs.Ropes

/-
A walk over a text visits the lines that its lookup has (`walks_edits`), whether the text is a string or a
rope that has been edited. Each visit is what the lookup says at that number, every number below the
count comes up once and in order, and from the count on there is no line.

What a line is does not depend on how it is found. A text is cut behind every break (`Cut`), and of each
piece the line feed and the carriage return at its end are taken off. The two kinds of text differ in what
a break is.
-/

namespace SymbolOutline

namespace Text

/-! ## Strings, cut behind line feeds -/

/-- The only break of a string is a line feed. -/
def IsFeed (brk : List Char) : Prop := brk = ['\n']

variable {isBreak : List Char → Prop} {c : Char} {cs piece : List Char} {pieces : List (List Char)}

theorem isFeed_feed : IsFeed ['\n'] := rfl

/-- What stands between the line feeds of a text are the pieces of a cut without the line feeds at their
ends. -/
theorem exists_cut_splitFeeds (cs : List Char) :
    ∃ pieces, Cut IsFeed cs pieces ∧ pieces.map (dropEnd '\n') = splitFeeds cs := by
  induction cs with
  | nil => exact ⟨[[]], .last .nil, rfl⟩
  | cons c cs ih =>
    obtain ⟨pieces, hcut, hlines⟩ := ih
    by_cases hc : c = '\n'
    · subst hc
      refine ⟨['\n'] :: pieces, hcut.break_append isFeed_feed fun d _ h => by simp [IsFeed] at h, ?_⟩
      rw [splitFeeds_feed, List.map_cons, hlines]
      rfl
    · have hplain : ¬ IsFeed [c] := fun h => hc (List.cons.inj h).1
      cases pieces with
      | nil => cases hcut
      | cons piece pieces =>
        refine ⟨(c :: piece) :: pieces, hcut.cons hplain, ?_⟩
        rw [splitFeeds_cons hc hlines.symm, List.map_cons, dropEnd_cons hc]

/-! ## Lines without their ends -/

/-- A character that is left of a line was there, and not only at its end. -/
theorem mem_dropEnd {d : Char} (h : d ∈ dropEnd c piece) : d ∈ piece ∧ (d = c → d ∈ piece.dropLast) := by
  unfold dropEnd at h
  split at h
  · exact ⟨List.mem_of_mem_dropLast h, fun _ => h⟩
  · next hlast =>
    refine ⟨h, ?_⟩
    rintro rfl
    have hne := List.ne_nil_of_mem h
    rw [← List.dropLast_concat_getLast hne, List.mem_append, List.mem_singleton] at h
    refine h.resolve_right fun heq => hlast ?_
    rw [List.getLast?_eq_some_getLast hne, ← heq]

/-- Where a line feed is a break, and only the last character of one, lines have none. -/
theorem Cut.notMem_lineOf (hfeed : isBreak ['\n'])
    (hlast : ∀ brk, isBreak brk → brk ≠ [] ∧ '\n' ∉ brk.dropLast) (h : Cut isBreak cs pieces) :
    ∀ p ∈ pieces, '\n' ∉ (lineOf p).toList := by
  have hends : ∀ p, '\n' ∉ p.dropLast → '\n' ∉ (lineOf p).toList := by
    intro p hp hmem
    rw [lineOf, String.toList_ofList] at hmem
    exact hp ((mem_dropEnd (mem_dropEnd hmem).1).2 rfl)
  induction h with
  | last hbody =>
    intro p hp
    obtain rfl := List.mem_singleton.1 hp
    exact hends p fun hmem => hbody _ (List.mem_of_mem_dropLast hmem) hfeed
  | @piece body brk rest pieces hbody hbrk hwhole hrest ih =>
    intro p hp
    rcases List.mem_cons.1 hp with rfl | hp
    · refine hends _ ?_
      rw [List.dropLast_append_of_ne_nil (hlast brk hbrk).1, List.mem_append, not_or]
      exact ⟨fun hmem => hbody _ hmem hfeed, (hlast brk hbrk).2⟩
    · exact ih p hp

end Text

namespace TextLines

open Text

/-- A walk over a text visits what the lookup has, and that is what the text says between its breaks. -/
structure Walks (t : TextLines) (isBreak : List Char → Prop) (text : List Char) : Prop where
  /-- The walk is the one that asks for every line by its number. -/
  walk : t.visits = TextLines.walk t.count t.line?
  /-- Every number below the count comes up once and in order, with the line that has it. -/
  inOrder : (t.visits.map fun v => (v.1, some v.2)) = (List.range t.count).map fun n => (n, t.line? n)
  /-- There is no line from the count on. -/
  beyond : ∀ n, t.count ≤ n → t.line? n = none
  /-- No line has a line feed, at its end or elsewhere. -/
  feed : ∀ v ∈ t.visits, '\n' ∉ v.2.toList
  /-- The lines are the pieces of the text without their ends. -/
  cut : ∃ pieces, Cut isBreak text pieces ∧ t.visits.map Prod.snd = pieces.map lineOf

/-- Lines that are numbered come up in order, each with the line that has its number. -/
theorem map_numbered (lines : List String) : ((numbered lines).map fun v => (v.1, some v.2)) =
    (List.range lines.length).map fun n => (n, lines[n]?) := by
  refine List.ext_getElem (by simp [numbered]) fun n hn hn' => ?_
  have hlt : n < lines.length := by simpa using hn'
  simp [numbered, hlt]

theorem walk_getElem? (lines : List String) :
    TextLines.walk lines.length (fun n => lines[n]?) = numbered lines := by
  calc TextLines.walk lines.length (fun n => lines[n]?)
      = ((List.range lines.length).map fun n => (n, lines[n]?)).filterMap fun v =>
          v.2.map (v.1, ·) := by
        rw [List.filterMap_map]
        rfl
    _ = ((numbered lines).map fun v => (v.1, some v.2)).filterMap fun v => v.2.map (v.1, ·) := by
        rw [map_numbered]
    _ = numbered lines := by
        rw [List.filterMap_map]
        exact List.filterMap_some

/-- A text that has the pieces of a cut without their ends as its lines. -/
theorem Has.walks {t : TextLines} {isBreak : List Char → Prop} {text : List Char}
    {pieces : List (List Char)} (hfeed : isBreak ['\n'])
    (hlast : ∀ brk, isBreak brk → brk ≠ [] ∧ '\n' ∉ brk.dropLast) (hcut : Cut isBreak text pieces)
    (h : t.Has (pieces.map lineOf)) : t.Walks isBreak text where
  walk := by
    rw [h.visits, h.count, show t.line? = fun n => (pieces.map lineOf)[n]? from funext h.line?]
    exact (walk_getElem? _).symm
  inOrder := by
    rw [h.visits, h.count]
    simp only [h.line?]
    exact map_numbered _
  beyond := fun n hn => by
    rw [h.line?]
    exact List.getElem?_eq_none (h.count ▸ hn)
  feed := by
    rintro ⟨n, line⟩ hv
    rw [h.visits] at hv
    obtain ⟨p, hp, rfl⟩ := List.mem_map.1 (List.mem_of_getElem? (mem_numbered.1 hv))
    exact hcut.notMem_lineOf hfeed hlast p hp
  cut := ⟨pieces, hcut, by rw [h.visits, map_snd_numbered]⟩

theorem walks_ofString (s : String) : (ofString s).Walks IsFeed s.toList := by
  obtain ⟨pieces, hcut, hpieces⟩ := exists_cut_splitFeeds s.toList
  refine Has.walks isFeed_feed (fun brk hbrk => ?_) hcut ?_
  · rw [show brk = ['\n'] from hbrk]
    decide
  · have hlines := has_ofString s
    rw [← hpieces, List.map_map] at hlines
    exact hlines

theorem walks_textLines {R : Type} [Rope R] [LawfulRope R] (r : R) :
    (Rope.textLines r).Walks IsUnicodeBreak (Rope.text r).toList := by
  have hcut := cut_splitBreaks (Rope.text r).toList
  refine Has.walks (isUnicodeBreak_singleton.2 rfl) (fun brk hbrk => ?_) hcut (Rope.has_textLines r hcut)
  rcases hbrk with rfl | ⟨c, rfl, -⟩
  · decide
  · simp

/-- A walk visits what the lookup has, over a string and over a rope with the same text that any edits have
changed. -/
theorem walks_edits (R : Type) [Rope R] [LawfulRope R] (s : String) (edits : List (Nat × Nat × String)) :
    (ofString s).Walks IsFeed s.toList ∧
      ∀ r : R, Rope.text r = s →
        (Rope.textLines (edits.foldl (fun r e => Rope.replace r e.1 e.2.1 e.2.2) r)).Walks IsUnicodeBreak
          (edits.foldl (fun cs e => splice cs e.1 e.2.1 e.2.2.toList) s.toList) := by
  refine ⟨walks_ofString s, fun r hr => ?_⟩
  rw [← hr, ← Rope.toList_text_foldl]
  exact walks_textLines _

/-- An edit beyond the end, one that stops before it starts, and one that takes half of a break away. -/
theorem walks_edits_mixed :
    let s := "a\r\nb\x0cc"
    let edits := [(100, 2, "\r"), (5, 1, "\u2028"), (0, 2, "")]
    let r := edits.foldl (fun r e => Rope.replace r e.1 e.2.1 e.2.2) (Buffer.ofString s)
    (LawfulRope Buffer ∧ Rope.text (Buffer.ofString s) = s) ∧
      (ofString s).visits = [(0, "a"), (1, "b\x0cc")] ∧ Rope.text r = "\nb\x0c\u2028c\r" ∧
      (Rope.textLines r).visits = [(0, ""), (1, "b\x0c"), (2, "\u2028"), (3, "c"), (4, "")] ∧
      (ofString s).Walks IsFeed s.toList ∧ (Rope.textLines r).Walks IsUnicodeBreak
        (edits.foldl (fun cs e => splice cs e.1 e.2.1 e.2.2.toList) s.toList) := by
  intro s edits r
  have htext : Rope.text (Buffer.ofString s) = s := LawfulRope.text_ofString s
  obtain ⟨hstring, hrope⟩ := walks_edits Buffer s edits
  exact ⟨⟨inferInstance, htext⟩, by decide, by decide, by decide, hstring, hrope _ htext⟩

end TextLines

end SymbolOutline
