import SymbolOutline.Mark.Scan
import SymbolOutline.Proofs.Ropes

/-
When a string and a rope with the same text have the same lines (`agree_iff_feedsOnly`). A string
breaks into lines at line feeds, a rope at every line break that Unicode knows. So the lines are the
same exactly if every break is a line feed, with a carriage return in front of it or without
(`FeedsOnly`); each other break gives the rope one line more.
-/

namespace SymbolOutline

namespace Text

variable {c : Char} {cs : List Char}

/-! ## Texts with line feeds only -/

/-- Every line break is a line feed, or a carriage return with a line feed behind it. -/
def FeedsOnly (text : List Char) : Prop :=
  ∀ pre c post, text = pre ++ c :: post → isLineBreak c = true →
    c = '\n' ∨ c = '\r' ∧ post.head? = some '\n'

theorem feedsOnly_nil : FeedsOnly [] := by
  intro pre c post h
  cases pre <;> cases h

theorem feedsOnly_cons : FeedsOnly (c :: cs) ↔
    (isLineBreak c = true → c = '\n' ∨ c = '\r' ∧ cs.head? = some '\n') ∧ FeedsOnly cs := by
  constructor
  · exact fun h => ⟨h [] c cs rfl, fun pre d post hcs => h (c :: pre) d post (congrArg (c :: ·) hcs)⟩
  · rintro ⟨hc, hcs⟩ pre d post h
    cases pre with
    | nil =>
      obtain ⟨rfl, rfl⟩ := List.cons.inj h
      exact hc
    | cons e pre => exact hcs pre d post (List.cons.inj h).2

theorem feedsOnly_cons_of_not_isLineBreak (hc : isLineBreak c = false) :
    FeedsOnly (c :: cs) ↔ FeedsOnly cs := by
  rw [feedsOnly_cons, hc]
  simp

theorem feedsOnly_feed : FeedsOnly ('\n' :: cs) ↔ FeedsOnly cs := by
  rw [feedsOnly_cons]
  simp

theorem feedsOnly_return_feed : FeedsOnly ('\r' :: '\n' :: cs) ↔ FeedsOnly cs := by
  rw [feedsOnly_cons, feedsOnly_feed]
  simp

/-- A break that is neither a line feed nor in front of one. -/
theorem not_feedsOnly_cons (hc : isLineBreak c = true) (hfeed : c ≠ '\n')
    (hreturn : c = '\r' → cs.head? ≠ some '\n') : ¬ FeedsOnly (c :: cs) := by
  intro h
  rcases (feedsOnly_cons.1 h).1 hc with hn | ⟨hr, hhead⟩
  · exact hfeed hn
  · exact hreturn hr hhead

theorem ne_of_not_isLineBreak (hc : isLineBreak c = false) : c ≠ '\n' ∧ c ≠ '\r' := by
  constructor
  · rintro rfl
    cases hc
  · rintro rfl
    cases hc

/-! ## The two ways to break a text -/

/-- There are as many lines either way exactly if there are line feeds only, and else more where
every break counts. -/
theorem length_splitBreaks (cs : List Char) :
    (splitFeeds cs).length ≤ (splitBreaks cs).length ∧
      ((splitBreaks cs).length = (splitFeeds cs).length ↔ FeedsOnly cs) := by
  fun_induction splitBreaks cs with
  | case1 => exact ⟨Nat.le_refl _, iff_of_true rfl feedsOnly_nil⟩
  | case2 cs ih =>
    rw [splitFeeds_cons (by decide) (splitFeeds_feed cs), feedsOnly_return_feed, ← ih.2]
    simp [ih.1]
  | case3 c cs hpair hbreak ih =>
    by_cases hfeed : c = '\n'
    · subst hfeed
      rw [splitFeeds_feed, feedsOnly_feed, ← ih.2]
      simp [ih.1]
    · obtain ⟨line, lines, hlines⟩ := List.exists_cons_of_ne_nil (splitFeeds_ne_nil cs)
      have hle := ih.1
      have hstray : ¬ FeedsOnly (c :: cs) := by
        refine not_feedsOnly_cons hbreak hfeed fun hr hhead => ?_
        obtain ⟨cs', rfl⟩ := List.head?_eq_some_iff.1 hhead
        exact hpair cs' hr rfl
      rw [hlines] at hle
      rw [splitFeeds_cons hfeed hlines]
      simp only [List.length_cons] at hle ⊢
      exact ⟨by omega, iff_of_false (by omega) hstray⟩
  | case4 c cs hpair hbreak hnil ih =>
    rw [hnil] at ih
    exact absurd (Nat.le_zero.1 ih.1) (by simpa using splitFeeds_ne_nil cs)
  | case5 c cs hpair hbreak piece pieces hpieces ih =>
    obtain ⟨line, lines, hlines⟩ := List.exists_cons_of_ne_nil (splitFeeds_ne_nil cs)
    have hc : isLineBreak c = false := by simpa using hbreak
    rw [hpieces, hlines] at ih
    rw [splitFeeds_cons (ne_of_not_isLineBreak hc).1 hlines, feedsOnly_cons_of_not_isLineBreak hc]
    exact ih

/-- Where there are line feeds only, the lines say the same without their ends. -/
theorem map_splitBreaks (h : FeedsOnly cs) :
    (splitBreaks cs).map (fun piece => dropEnd '\r' (dropEnd '\n' piece)) =
      (splitFeeds cs).map (dropEnd '\r') := by
  fun_induction splitBreaks cs with
  | case1 => rfl
  | case2 cs ih =>
    rw [splitFeeds_cons (by decide) (splitFeeds_feed cs), List.map_cons, List.map_cons,
      ih (feedsOnly_return_feed.1 h)]
    rfl
  | case3 c cs hpair hbreak ih =>
    obtain ⟨hc, hcs⟩ := feedsOnly_cons.1 h
    rcases hc hbreak with rfl | ⟨rfl, hhead⟩
    · rw [splitFeeds_feed, List.map_cons, List.map_cons, ih hcs]
      rfl
    · obtain ⟨cs', rfl⟩ := List.head?_eq_some_iff.1 hhead
      exact absurd rfl (hpair cs' rfl)
  | case4 c cs hpair hbreak hnil ih =>
    have := (length_splitBreaks cs).1
    rw [hnil] at this
    exact absurd (Nat.le_zero.1 this) (by simpa using splitFeeds_ne_nil cs)
  | case5 c cs hpair hbreak piece pieces hpieces ih =>
    obtain ⟨line, lines, hlines⟩ := List.exists_cons_of_ne_nil (splitFeeds_ne_nil cs)
    have hc : isLineBreak c = false := by simpa using hbreak
    obtain ⟨hfeed, hreturn⟩ := ne_of_not_isLineBreak hc
    have ih := ih (feedsOnly_cons.1 h).2
    rw [hpieces, hlines, List.map_cons, List.map_cons] at ih
    obtain ⟨hfirst, hrest⟩ := List.cons.inj ih
    rw [splitFeeds_cons hfeed hlines, List.map_cons, List.map_cons, dropEnd_cons hfeed,
      dropEnd_cons hreturn, dropEnd_cons hreturn, hfirst, hrest]

end Text

namespace TextLines

/-- Two texts have as many lines, the same line for every number and the same walk, and so the same
marks, whatever the keywords. -/
structure Agree (a b : TextLines) : Prop where
  count : a.count = b.count
  line? : ∀ n, a.line? n = b.line? n
  visits : a.visits = b.visits
  marks : ∀ ks, a.marks ks = b.marks ks

/-- Texts with the same lines agree. -/
theorem Has.agree {a b : TextLines} {lines : List String} (ha : a.Has lines) (hb : b.Has lines) :
    Agree a b := by
  obtain rfl : a = b := ha.eq.trans hb.eq.symm
  exact ⟨rfl, fun _ => rfl, rfl, fun _ => rfl⟩

/-- A rope and a string with the same text agree exactly if every line break of the text is a line
feed, or a carriage return with a line feed behind it. -/
theorem agree_iff_feedsOnly (R : Type) [Rope R] [LawfulRope R] (s : String) :
    Agree (Rope.textLines (Rope.ofString s : R)) (ofString s) ↔ Text.FeedsOnly s.toList := by
  have hcut : Text.Cut Text.IsUnicodeBreak (Rope.text (Rope.ofString s : R)).toList
      (Text.splitBreaks s.toList) := by
    rw [LawfulRope.text_ofString]
    exact Text.cut_splitBreaks s.toList
  have hrope := Rope.has_textLines (Rope.ofString s : R) hcut
  constructor
  · intro h
    have hcount := h.count
    rw [hrope.count, (has_ofString s).count, List.length_map, List.length_map] at hcount
    exact (Text.length_splitBreaks s.toList).2.1 hcount
  · intro h
    refine Has.agree ?_ (has_ofString s)
    have := congrArg (List.map String.ofList) (Text.map_splitBreaks h)
    rw [List.map_map, List.map_map] at this
    exact this ▸ hrope

/-- A text with both kinds of line feeds. -/
theorem agree_iff_feedsOnly_feeds : LawfulRope Buffer ∧
    Agree (Rope.textLines (Rope.ofString "a\r\n\nb" : Buffer)) (ofString "a\r\n\nb") := by
  refine ⟨inferInstance, (agree_iff_feedsOnly Buffer "a\r\n\nb").2 ?_⟩
  have ha : Text.isLineBreak 'a' = false := rfl
  have hb : Text.isLineBreak 'b' = false := rfl
  show Text.FeedsOnly ['a', '\r', '\n', '\n', 'b']
  rw [Text.feedsOnly_cons_of_not_isLineBreak ha, Text.feedsOnly_return_feed, Text.feedsOnly_feed,
    Text.feedsOnly_cons_of_not_isLineBreak hb]
  exact Text.feedsOnly_nil

/-- A form feed breaks a line of the buffer, and behind it there is a second tag. -/
theorem not_agree_formFeed :
    ¬ Agree (Buffer.ofString "#tag a\x0c#tag b").lines (ofString "#tag a\x0c#tag b") ∧
      ((Buffer.ofString "#tag a\x0c#tag b").lines.marks .standard).tags.map Mark.nameText? =
        [some "a", some "b"] ∧
      ((ofString "#tag a\x0c#tag b").marks .standard).tags.map Mark.nameText? = [some "a"] :=
  ⟨fun h => absurd h.count (by decide), by decide, by decide⟩

end TextLines

end SymbolOutline
