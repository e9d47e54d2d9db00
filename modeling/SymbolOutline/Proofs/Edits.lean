import SymbolOutline.Mark.Features
import SymbolOutline.Proofs.LineBreaks

/-
Edits of a string. An edit that stays within one line, and puts a text without line breaks there,
changes that line and no other (`visits_apply`). Edits of different lines do not get in each
other's way, so they may be carried out one after the other in any order (`visits_applyAll`).
-/

namespace SymbolOutline

namespace Text

/-- The lines in front of the one with a number, each with its line feed. -/
def front (text : List Char) (line : Nat) : List Char :=
  ((splitFeeds text).take line).flatMap fun l => l ++ ['\n']

/-- The number of characters in front of a position. -/
def offset (text : List Char) (p : Position) : Nat := (front text p.line).length + p.column

/-! ## Lines of a text -/

theorem splitFeeds_append {line : List Char} (h : '\n' ∉ line) (cs : List Char) :
    splitFeeds (line ++ '\n' :: cs) = line :: splitFeeds cs := by
  induction line with
  | nil => exact splitFeeds_feed cs
  | cons c line ih =>
    rw [List.mem_cons, not_or] at h
    exact splitFeeds_cons (Ne.symm h.1) (ih h.2)

theorem splitFeeds_of_notMem {line : List Char} (h : '\n' ∉ line) : splitFeeds line = [line] := by
  induction line with
  | nil => rfl
  | cons c line ih =>
    rw [List.mem_cons, not_or] at h
    exact splitFeeds_cons (Ne.symm h.1) (ih h.2)

theorem notMem_of_mem_splitFeeds {cs line : List Char} (h : line ∈ splitFeeds cs) : '\n' ∉ line := by
  induction cs generalizing line with
  | nil =>
    obtain rfl := List.mem_singleton.1 h
    exact List.not_mem_nil
  | cons c cs ih =>
    by_cases hc : c = '\n'
    · rw [hc, splitFeeds_feed] at h
      rcases List.mem_cons.1 h with rfl | h
      · exact List.not_mem_nil
      · exact ih h
    · obtain ⟨first, lines, hlines⟩ := List.exists_cons_of_ne_nil (splitFeeds_ne_nil cs)
      rw [splitFeeds_cons hc hlines] at h
      rw [hlines] at ih
      rcases List.mem_cons.1 h with rfl | h
      · rw [List.mem_cons, not_or]
        exact ⟨Ne.symm hc, ih (List.mem_cons_self ..)⟩
      · exact ih (List.mem_cons_of_mem _ h)

/-- A line of a text, with what stands in front of it and behind it. If another line is put in its place, the
other lines stay what they are. -/
theorem exists_split {cs line : List Char} {i : Nat} (h : (splitFeeds cs)[i]? = some line) :
    ∃ after, cs = front cs i ++ (line ++ after) ∧
      ∀ new, '\n' ∉ new → splitFeeds (front cs i ++ (new ++ after)) = (splitFeeds cs).set i new := by
  unfold front
  induction cs generalizing i line with
  | nil =>
    cases i with
    | zero =>
      obtain rfl : [] = line := Option.some.inj h
      refine ⟨[], rfl, fun new hnew => ?_⟩
      show splitFeeds (new ++ []) = [new]
      rw [List.append_nil]
      exact splitFeeds_of_notMem hnew
    | succ i => cases h
  | cons c cs ih =>
    by_cases hc : c = '\n'
    · subst hc
      rw [splitFeeds_feed] at h ⊢
      cases i with
      | zero =>
        obtain rfl : [] = line := Option.some.inj h
        exact ⟨'\n' :: cs, rfl, fun new hnew => splitFeeds_append hnew cs⟩
      | succ i =>
        obtain ⟨after, hcs, hset⟩ := ih h
        rw [List.take_succ_cons, List.flatMap_cons]
        refine ⟨after, congrArg _ hcs, fun new hnew => ?_⟩
        rw [List.nil_append, List.append_assoc, List.singleton_append, splitFeeds_feed, hset new hnew]
        rfl
    · obtain ⟨first, lines, hlines⟩ := List.exists_cons_of_ne_nil (splitFeeds_ne_nil cs)
      rw [hlines] at ih
      rw [splitFeeds_cons hc hlines] at h ⊢
      cases i with
      | zero =>
        obtain rfl : c :: first = line := Option.some.inj h
        obtain ⟨after, hcs, hset⟩ := ih (i := 0) rfl
        exact ⟨after, congrArg _ hcs, hset⟩
      | succ i =>
        obtain ⟨after, hcs, hset⟩ := ih (i := i + 1) h
        exact ⟨after, congrArg _ hcs, fun new hnew => splitFeeds_cons hc (hset new hnew)⟩

/-- A `c` at the end of a line stays where it is when something before it is replaced. -/
theorem dropEnd_replace {c : Char} {line new : List Char} {start stop : Nat} (hle : start ≤ stop)
    (hstop : stop ≤ (dropEnd c line).length) (hnil : new ≠ []) (hnew : c ∉ new) :
    dropEnd c (line.take start ++ (new ++ line.drop stop)) =
      (dropEnd c line).take start ++ (new ++ (dropEnd c line).drop stop) := by
  by_cases hlast : line.getLast? = some c
  · obtain ⟨ds, rfl⟩ := List.getLast?_eq_some_iff.1 hlast
    have hline : ∀ ds : List Char, dropEnd c (ds ++ [c]) = ds := fun ds => by simp [dropEnd]
    rw [hline] at hstop ⊢
    rw [List.take_append_of_le_length (Nat.le_trans hle hstop), List.drop_append_of_le_length hstop,
      ← List.append_assoc new, ← List.append_assoc, hline]
  · have hline : dropEnd c line = line := if_neg hlast
    rw [hline]
    refine if_neg fun h => ?_
    -- the last character is that of the line, or of the new text
    rw [List.getLast?_append, List.getLast?_append] at h
    rw [← List.take_append_drop stop line, List.getLast?_append] at hlast
    cases hdrop : (line.drop stop).getLast? with
    | some d =>
      rw [hdrop] at h hlast
      exact hlast h
    | none =>
      obtain ⟨d, hd⟩ := Option.ne_none_iff_exists'.1 (mt List.getLast?_eq_none_iff.1 hnil)
      rw [hdrop, hd] at h
      obtain rfl : d = c := Option.some.inj h
      exact hnew (List.mem_of_getLast? hd)

theorem numbered_set {α : Type} (xs : List α) (i : Nat) (x : α) :
    numbered (xs.set i x) = (numbered xs).map fun l => if l.1 = i then (l.1, x) else l := by
  refine List.ext_getElem? fun n => ?_
  simp only [numbered, List.getElem?_map, List.getElem?_zipIdx, List.getElem?_set]
  by_cases hn : i = n
  · subst hn
    by_cases hlt : i < xs.length
    · simp [hlt]
    · simp [hlt]
  · cases xs[n]? <;> simp [hn, Ne.symm hn]

end Text

/-! ## Edits -/

namespace TextEdit

/-- Carries out an edit. -/
def apply (e : TextEdit) (s : String) : String :=
  ((Buffer.ofString s).replace (Text.offset s.toList e.range.start) (Text.offset s.toList e.range.stop)
    e.newText).text

/-- Carries out edits, one after the other. -/
def applyAll (es : List TextEdit) (s : String) : String := es.foldl (fun s e => e.apply s) s

/-- What an edit makes of a numbered line. -/
def onLine (e : TextEdit) (l : Nat × String) : Nat × String :=
  if l.1 = e.range.firstLine then
    (l.1, String.ofList (l.2.toList.take e.range.start.column ++
      (e.newText.toList ++ l.2.toList.drop e.range.stop.column)))
  else l

/-- An edit stays within one line of a string, and puts a text without line breaks there. -/
structure Fits (e : TextEdit) (s : String) : Prop where
  oneLine : e.range.lastLine = e.range.firstLine
  inside : ∃ line, (e.range.firstLine, line) ∈ (TextLines.ofString s).visits ∧
    e.range.stop.column ≤ line.toList.length
  ne_empty : e.newText ≠ ""
  unbroken : '\n' ∉ e.newText.toList ∧ '\r' ∉ e.newText.toList

variable {e : TextEdit} {s : String}

/-- Characters are replaced where the offsets point. -/
theorem text_replace (before mid after : List Char) (new : String) :
    (Buffer.replace ⟨before ++ (mid ++ after)⟩ before.length (before.length + mid.length) new).text =
      String.ofList (before ++ (new.toList ++ after)) := by
  have htext := Rope.toList_text_replace (⟨before ++ (mid ++ after)⟩ : Buffer) before.length
    (before.length + mid.length) new
  have hchars : (Rope.text (⟨before ++ (mid ++ after)⟩ : Buffer)).toList = before ++ (mid ++ after) :=
    String.toList_ofList
  have hdrop : (before ++ (mid ++ after)).drop (before.length + mid.length) = after := by
    rw [← List.length_append, ← List.append_assoc, List.drop_left]
  rw [hchars, Text.splice, List.take_left, Nat.max_eq_right (Nat.le_add_right _ _), hdrop] at htext
  rw [← htext, String.ofList_toList]
  rfl

/-- An edit within one line, carried out: what stands in front of the line and behind it stays. -/
theorem apply_eq {line after : List Char} (hline : e.range.lastLine = e.range.firstLine)
    (hs : s.toList = Text.front s.toList e.range.firstLine ++ (line ++ after))
    (hle : e.range.start.column ≤ e.range.stop.column) (hstop : e.range.stop.column ≤ line.length) :
    e.apply s = String.ofList (Text.front s.toList e.range.firstLine ++
      ((line.take e.range.start.column ++ (e.newText.toList ++ line.drop e.range.stop.column)) ++
        after)) := by
  have hstart : Text.offset s.toList e.range.start =
      (Text.front s.toList e.range.firstLine).length + e.range.start.column := rfl
  have hend : Text.offset s.toList e.range.stop =
      (Text.front s.toList e.range.firstLine).length + e.range.stop.column := by
    rw [← hline]
    rfl
  unfold apply Buffer.ofString
  rw [hstart, hend]
  generalize Text.front s.toList e.range.firstLine = before at *
  -- the string, cut where the edit starts and where it stops
  have hcut : s.toList = (before ++ line.take e.range.start.column) ++
      ((line.drop e.range.start.column).take (e.range.stop.column - e.range.start.column) ++
        (line.drop e.range.stop.column ++ after)) := by
    have hdrop : line.drop e.range.stop.column = (line.drop e.range.start.column).drop
        (e.range.stop.column - e.range.start.column) := by
      rw [List.drop_drop, Nat.add_sub_cancel' hle]
    rw [hs, hdrop, ← List.append_assoc (List.take _ (List.drop _ line)), List.take_append_drop,
      List.append_assoc before, ← List.append_assoc (List.take _ line), List.take_append_drop]
  have hlength : before.length + e.range.start.column =
        (before ++ line.take e.range.start.column).length ∧
      before.length + e.range.stop.column = (before ++ line.take e.range.start.column).length +
        ((line.drop e.range.start.column).take
          (e.range.stop.column - e.range.start.column)).length := by
    simp only [List.length_append, List.length_take, List.length_drop]
    omega
  rw [hlength.1, hlength.2, hcut, text_replace]
  simp only [List.append_assoc]

/-- An edit changes the line that it is on, and no other. -/
theorem visits_apply (h : e.Fits s) :
    (TextLines.ofString (e.apply s)).visits = (TextLines.ofString s).visits.map e.onLine := by
  obtain ⟨text, hmem, hstop⟩ := h.inside
  have hlines := (TextLines.has_ofString s).visits
  rw [hlines] at hmem
  have htext := Text.mem_numbered.1 hmem
  rw [List.getElem?_map] at htext
  obtain ⟨line, hline, rfl⟩ := Option.map_eq_some_iff.1 htext
  rw [String.toList_ofList] at hstop
  obtain ⟨after, hs, hset⟩ := Text.exists_split hline
  have hle : e.range.start.column ≤ e.range.stop.column := by
    rcases e.range.ordered with hlt | ⟨-, hle⟩
    · exact absurd h.oneLine (Nat.ne_of_gt hlt)
    · exact hle
  have hlength : e.range.stop.column ≤ line.length :=
    Nat.le_trans hstop (Text.length_dropEnd_le _ line)
  have hfeed : '\n' ∉ line.take e.range.start.column ++
      (e.newText.toList ++ line.drop e.range.stop.column) := by
    have hold := Text.notMem_of_mem_splitFeeds (List.mem_of_getElem? hline)
    simp only [List.mem_append, not_or]
    exact ⟨fun h => hold (List.mem_of_mem_take h), h.unbroken.1, fun h => hold (List.mem_of_mem_drop h)⟩
  rw [(TextLines.has_ofString (e.apply s)).visits, hlines]
  simp only [apply_eq h.oneLine hs hle hlength, String.toList_ofList, hset _ hfeed, List.map_set,
    Text.dropEnd_replace hle hstop (by simpa using h.ne_empty) h.unbroken.2]
  rw [Text.numbered_set]
  refine List.map_congr_left fun l hl => ?_
  unfold onLine
  split
  · next hi =>
    -- there is one line with the number
    have hsame := Text.mem_numbered.1 hl
    rw [hi, List.getElem?_map, hline] at hsame
    rw [← Option.some.inj hsame, String.toList_ofList]
  · rfl

/-- An edit of another line fits as before. -/
theorem Fits.apply {d : TextEdit} (hd : d.Fits s) (he : e.Fits s)
    (hne : d.range.firstLine ≠ e.range.firstLine) : d.Fits (e.apply s) where
  oneLine := hd.oneLine
  inside := by
    obtain ⟨line, hmem, hstop⟩ := hd.inside
    refine ⟨line, ?_, hstop⟩
    rw [visits_apply he]
    exact List.mem_map.2 ⟨_, hmem, if_neg hne⟩
  ne_empty := hd.ne_empty
  unbroken := hd.unbroken

/-- Edits of different lines change the lines that they are on, each its own. -/
theorem visits_applyAll {es : List TextEdit} (h : ∀ e ∈ es, e.Fits s)
    (hne : es.Pairwise fun d e => d.range.firstLine ≠ e.range.firstLine) :
    (TextLines.ofString (applyAll es s)).visits =
      (TextLines.ofString s).visits.map fun l => es.foldl (fun l e => e.onLine l) l := by
  induction es generalizing s with
  | nil => exact (List.map_id _).symm
  | cons e es ih =>
    obtain ⟨hfirst, hrest⟩ := List.pairwise_cons.1 hne
    have he := h e (List.mem_cons_self ..)
    have hfits : ∀ d ∈ es, d.Fits (e.apply s) := fun d hd =>
      (h d (List.mem_cons_of_mem _ hd)).apply he (hfirst d hd).symm
    have := ih hfits hrest
    rw [visits_apply he, List.map_map] at this
    exact this

@[simp] theorem fst_onLine (e : TextEdit) (l : Nat × String) : (e.onLine l).1 = l.1 := by
  unfold onLine
  split <;> rfl

theorem foldl_onLine_of_ne {es : List TextEdit} {l : Nat × String}
    (h : ∀ e ∈ es, l.1 ≠ e.range.firstLine) : es.foldl (fun l e => e.onLine l) l = l := by
  induction es with
  | nil => rfl
  | cons e es ih =>
    have hl : e.onLine l = l := if_neg (h e (List.mem_cons_self ..))
    rw [List.foldl_cons, hl]
    exact ih fun d hd => h d (List.mem_cons_of_mem _ hd)

/-- Of edits of different lines, a line sees the one that is on it. -/
theorem foldl_onLine {es : List TextEdit}
    (hne : es.Pairwise fun d e => d.range.firstLine ≠ e.range.firstLine) (he : e ∈ es)
    {l : Nat × String} (hl : l.1 = e.range.firstLine) :
    es.foldl (fun l e => e.onLine l) l = e.onLine l := by
  induction es with
  | nil => cases he
  | cons d es ih =>
    obtain ⟨hfirst, hrest⟩ := List.pairwise_cons.1 hne
    rw [List.foldl_cons]
    rcases List.mem_cons.1 he with rfl | he
    · refine foldl_onLine_of_ne fun d hd => ?_
      rw [fst_onLine, hl]
      exact hfirst d hd
    · have hd : d.onLine l = l := if_neg fun h => hfirst e he (h.symm.trans hl)
      rw [hd]
      exact ih hrest he

end TextEdit

end SymbolOutline
