import SymbolOutline.Text.Lines

/-
The lines of a text. A text has a list of lines (`TextLines.Has`) if it counts them, finds each by its number
and walks over them in order. These are three ways to read a text, and each takes the ends of lines off by
itself. A string has what stands between its line feeds (`has_ofString`).
-/

namespace SymbolOutline

namespace Text

/-! ## Lists, numbered -/

section

variable {α β : Type} {xs : List α} {x : α} {n : Nat}

theorem mem_numbered : (n, x) ∈ numbered xs ↔ xs[n]? = some x := by
  unfold numbered
  rw [List.mem_map]
  constructor
  · rintro ⟨⟨y, m⟩, hmem, ⟨⟩⟩
    exact List.mem_zipIdx_iff_getElem?.1 hmem
  · exact fun h => ⟨(x, n), List.mem_zipIdx_iff_getElem?.2 h, rfl⟩

theorem numbered_map (f : α → β) (xs : List α) :
    numbered (xs.map f) = (numbered xs).map fun v => (v.1, f v.2) := by
  simp [numbered, List.zipIdx_map, Function.comp_def]

theorem map_snd_numbered (xs : List α) : (numbered xs).map Prod.snd = xs := by
  simp [numbered, Function.comp_def]

/-- The numbers of a numbered list ascend. -/
theorem pairwise_numbered (xs : List α) : (numbered xs).Pairwise fun v w => v.1 < w.1 := by
  rw [List.pairwise_iff_getElem]
  intro i j hi hj hij
  simpa [numbered] using hij

end

/-! ## The ends of lines -/

variable {c d : Char} {cs line : List Char}

theorem dropEnd_cons_cons (c d e : Char) (line : List Char) :
    dropEnd c (d :: e :: line) = d :: dropEnd c (e :: line) := by
  unfold dropEnd
  rw [List.getLast?_cons_cons, List.dropLast_cons_cons]
  split <;> rfl

theorem dropEnd_cons (hd : d ≠ c) (line : List Char) : dropEnd c (d :: line) = d :: dropEnd c line := by
  cases line with
  | nil => simp [dropEnd, hd]
  | cons e line => exact dropEnd_cons_cons c d e line

theorem length_dropEnd_le (c : Char) (line : List Char) : (dropEnd c line).length ≤ line.length := by
  unfold dropEnd
  split
  · rw [List.length_dropLast]
    exact Nat.sub_le _ _
  · exact Nat.le_refl _

/-- What a line says in front of its last character, or else all of it, is the line without that character
at its end. -/
theorem getD_stripEnd? (c : Char) (line : List Char) : (stripEnd? c line).getD line = dropEnd c line := by
  fun_induction stripEnd? c line with
  | case1 => rfl
  | case2 => simp [dropEnd]
  | case3 d hd => exact (dropEnd_cons hd []).symm
  | case4 d e line ih =>
    rw [dropEnd_cons_cons, ← ih]
    cases stripEnd? c (e :: line) <;> rfl

/-! ## Between line feeds -/

theorem splitFeeds_ne_nil (cs : List Char) : splitFeeds cs ≠ [] := by
  cases cs with
  | nil => exact List.cons_ne_nil _ _
  | cons c cs =>
    rw [splitFeeds]
    split
    · exact List.cons_ne_nil _ _
    · split <;> exact List.cons_ne_nil _ _

theorem splitFeeds_feed (cs : List Char) : splitFeeds ('\n' :: cs) = [] :: splitFeeds cs := by
  rw [splitFeeds, if_pos rfl]

/-- A character other than a line feed becomes the first one of the first line. -/
theorem splitFeeds_cons (hc : c ≠ '\n') {lines : List (List Char)} (h : splitFeeds cs = line :: lines) :
    splitFeeds (c :: cs) = (c :: line) :: lines := by
  rw [splitFeeds, if_neg hc, h]

end Text

namespace TextLines

open Text

/-- A text has a list of lines: it counts them, finds each by its number, and a walk over it visits them
in order. -/
structure Has (t : TextLines) (lines : List String) : Prop where
  count : t.count = lines.length
  line? : ∀ n, t.line? n = lines[n]?
  visits : t.visits = numbered lines

variable {t : TextLines} {lines : List String}

/-- The lines determine the text. -/
theorem Has.eq (h : t.Has lines) : t = ⟨lines.length, fun n => lines[n]?, numbered lines⟩ := by
  obtain ⟨count, line?, visits⟩ := t
  obtain ⟨rfl, hline, rfl⟩ := h
  rw [show line? = fun n => lines[n]? from funext hline]

/-- A walk visits the lines in order, and the lookup has them. -/
theorem Has.pairwise_visits (h : t.Has lines) : (t.visits.Pairwise fun l m => l.1 < m.1) ∧
    ∀ l ∈ t.visits, t.line? l.1 = some l.2 ∧ l.1 < t.count := by
  rw [h.visits, h.count]
  refine ⟨pairwise_numbered lines, fun l hl => ?_⟩
  have hline := mem_numbered.1 hl
  rw [h.line?]
  exact ⟨hline, (List.getElem?_eq_some_iff.1 hline).1⟩

/-- A string has what stands between its line feeds, without carriage returns at the ends. -/
theorem has_ofString (s : String) :
    (ofString s).Has ((splitFeeds s.toList).map fun line => String.ofList (dropEnd '\r' line)) where
  count := List.length_map _ |>.symm
  line? n := by simp only [ofString, getD_stripEnd?, List.getElem?_map]
  visits := by simp only [ofString, getD_stripEnd?, numbered_map]

end TextLines

end SymbolOutline
