import SymbolOutline.Mark.Features
import SymbolOutline.Mark.Scan
import SymbolOutline.Proofs.Escapes
import SymbolOutline.Proofs.Lines
import SymbolOutline.Proofs.Rose

/-
Where marks and their parts stand (`placed_marks`). No two marks of a document are on one line. The
parts of a mark are on its line, one behind the other, and a name or a description is what the
characters it covers stand for.

The reader keeps columns and texts apart, so what ties them together is an invariant of its stages
(`Sound`): the characters from the start of a name on stand for the text that the reader has gathered
and for whatever comes next.
-/

namespace SymbolOutline

/-- The characters of a line that a part of it covers. -/
def Token.source (t : Token) (text : List Char) : List Char :=
  (text.drop t.range.start.column).take (t.range.stop.column - t.range.start.column)

namespace Mark

/-- The parts of a mark, in order. -/
def parts (a : Mark) : List Token := a.keyword :: (a.name.toList ++ a.description.toList)

/-- A mark stands on a line that says `text`. -/
structure Stands (line : Nat) (text : List Char) (a : Mark) : Prop where
  /-- All parts are on the line. -/
  line : ∀ t ∈ a.parts, t.range.firstLine = line ∧ t.range.lastLine = line
  /-- No part is empty, and the parts are apart from one another. -/
  columns : (a.parts.flatMap fun t => [t.range.start.column, t.range.stop.column]).Pairwise (· < ·)
  /-- No part reaches beyond the end of the line. -/
  inside : ∀ t ∈ a.parts, t.range.stop.column ≤ text.length
  /-- The mark reaches from the start of the keyword to the end of the last part. -/
  start : a.range.start = a.keyword.range.start
  stop : (a.parts.getLast?.map fun t => t.range.stop) = some a.range.stop
  /-- A name or a description is what it covers, without backslashes that escape. -/
  reads : ∀ t ∈ a.name.toList ++ a.description.toList, textOf (glyphs (t.source text)) = t.text.toList

namespace Stands

variable {line : Nat} {text : List Char} {a : Mark}

theorem firstLine (h : Stands line text a) : a.range.firstLine = line := by
  rw [Span.firstLine, h.start]
  exact (h.line a.keyword (List.mem_cons_self ..)).1

/-- The part that a mark ends with is behind all others. -/
theorem exists_last (h : Stands line text a) : ∃ l ∈ a.parts, l.range.stop = a.range.stop ∧
    ∀ t ∈ a.parts, t = l ∨ t.range.stop.column < l.range.stop.column := by
  obtain ⟨l, hl, hstop⟩ := Option.map_eq_some_iff.1 h.stop
  obtain ⟨ts, hts⟩ := List.getLast?_eq_some_iff.1 hl
  refine ⟨l, List.mem_of_getLast? hl, hstop, fun t ht => ?_⟩
  have hcolumns := h.columns
  rw [hts] at ht
  rw [hts, List.flatMap_append, List.pairwise_append] at hcolumns
  rcases List.mem_append.1 ht with ht | ht
  · refine .inr (hcolumns.2.2 _ (List.mem_flatMap.2 ⟨t, ht, ?_⟩) _ ?_) <;> simp
  · exact .inl (List.mem_singleton.1 ht)

theorem lastLine (h : Stands line text a) : a.range.lastLine = line := by
  obtain ⟨l, hl, hstop, -⟩ := h.exists_last
  rw [Span.lastLine, ← hstop]
  exact (h.line l hl).2

/-- The parts of a mark are within it. -/
theorem covers (h : Stands line text a) {t : Token} (ht : t ∈ a.parts) : a.range.Covers t.range := by
  have hline := h.line t ht
  constructor
  · rw [h.start]
    rcases List.mem_cons.1 ht with rfl | hmem
    · exact Position.le_refl _
    · have hk := (h.line a.keyword (List.mem_cons_self ..)).1
      have hlt : a.keyword.range.start.column < t.range.start.column :=
        (List.pairwise_cons.1 h.columns).1 _
          (List.mem_cons_of_mem _ (List.mem_flatMap.2 ⟨t, hmem, by simp⟩))
      exact .inr ⟨hk.trans hline.1.symm, Nat.le_of_lt hlt⟩
  · obtain ⟨l, hl, hstop, hlast⟩ := h.exists_last
    rw [← hstop]
    rcases hlast t ht with rfl | hlt
    · exact Position.le_refl _
    · exact .inr ⟨hline.2.trans (h.line l hl).2.symm, Nat.le_of_lt hlt⟩

end Stands

/-! ## Parts that have been read -/

/-- Parts of a line of which `pre` has been read, each with a character behind it. The first of them is
the keyword. -/
structure Lined (line : Nat) (pre : List Char) (ts : List Token) : Prop where
  line : ∀ t ∈ ts, t.range.firstLine = line ∧ t.range.lastLine = line
  columns : (ts.flatMap fun t => [t.range.start.column, t.range.stop.column]).Pairwise (· < ·)
  inside : ∀ t ∈ ts, t.range.stop.column < pre.length
  reads : ∀ t ∈ ts.tail, textOf (glyphs (t.source pre)) = t.text.toList

/-- A part that starts in column `start` and has not ended. What has been read of it stands for the
text gathered so far, save that a last backslash is about the next character. -/
structure Begun (pre : List Char) (ts : List Token) (start : Nat) (word : List Char)
    (escaping : Bool) : Prop where
  behind : ∀ t ∈ ts, t.range.stop.column < start
  before : start < pre.length
  reads : ∀ rest, textOf (glyphs (pre.drop start ++ rest)) =
    word.reverse ++ textOf (glyphs (if escaping then '\\' :: rest else rest))

variable {line : Nat} {pre word : List Char} {ts : List Token} {start : Nat}

theorem range_token (line : Nat) (text : String) {first stop : Nat} (h : first ≤ stop) :
    (token line text first stop).range.start = ⟨line, first⟩ ∧
      (token line text first stop).range.stop = ⟨line, stop⟩ := by
  have hle : (⟨line, first⟩ : Position) ≤ ⟨line, stop⟩ := .inr ⟨rfl, h⟩
  unfold token Span.between
  rw [dif_pos hle]
  exact ⟨rfl, rfl⟩

theorem start_le_stop {t : Token} (h : t.range.firstLine = t.range.lastLine) :
    t.range.start.column ≤ t.range.stop.column := by
  rcases t.range.ordered with hlt | ⟨-, hle⟩
  · exact absurd h (Nat.ne_of_lt hlt)
  · exact hle

theorem source_append {t : Token} (hstart : t.range.start.column ≤ t.range.stop.column)
    (hstop : t.range.stop.column ≤ pre.length) (more : List Char) :
    t.source (pre ++ more) = t.source pre := by
  unfold Token.source
  rw [List.drop_append_of_le_length (hstart.trans hstop), List.take_append_of_le_length]
  rw [List.length_drop]
  omega

namespace Lined

theorem mono (h : Lined line pre ts) (more : List Char) : Lined line (pre ++ more) ts where
  line := h.line
  columns := h.columns
  inside := fun t ht => by
    rw [List.length_append]
    exact Nat.lt_add_right _ (h.inside t ht)
  reads := by
    intro t ht
    have hmem := List.mem_of_mem_tail ht
    have hline := h.line t hmem
    rw [source_append (start_le_stop (hline.1.trans hline.2.symm)) (Nat.le_of_lt (h.inside t hmem))]
    exact h.reads t ht

/-- The keyword that has just ended. -/
theorem keyword {text : String} {first : Nat} (hfirst : first < pre.length) (c : Char) :
    Lined line (pre ++ [c]) [token line text first pre.length] := by
  obtain ⟨hstart, hstop⟩ := range_token line text (Nat.le_of_lt hfirst)
  refine ⟨?_, ?_, ?_, fun t ht => by cases ht⟩
  · intro t ht
    obtain rfl := List.mem_singleton.1 ht
    rw [Span.firstLine, Span.lastLine, hstart, hstop]
    exact ⟨rfl, rfl⟩
  · simp [hstart, hstop, hfirst]
  · intro t ht
    obtain rfl := List.mem_singleton.1 ht
    rw [hstop]
    simp

theorem start_le {k : Token} (h : Lined line pre (k :: ts)) :
    ∀ t ∈ k :: ts, k.range.start ≤ t.range.stop := by
  intro t ht
  rcases List.mem_cons.1 ht with rfl | hmem
  · exact t.range.ordered
  · have hk := (h.line k (List.mem_cons_self ..)).1
    have htl := (h.line t ht).2
    have hlt : k.range.start.column < t.range.stop.column :=
      (List.pairwise_cons.1 h.columns).1 _
        (List.mem_cons_of_mem _ (List.mem_flatMap.2 ⟨t, hmem, by simp⟩))
    exact .inr ⟨hk.trans htl.symm, Nat.le_of_lt hlt⟩

end Lined

namespace Begun

variable {escaping : Bool}

/-- One more character of a part. -/
theorem drop_concat (h : start < pre.length) (c : Char) (rest : List Char) :
    (pre ++ [c]).drop start ++ rest = pre.drop start ++ c :: rest := by
  rw [List.drop_append_of_le_length (Nat.le_of_lt h), List.append_assoc]
  rfl

theorem first (h : ∀ t ∈ ts, t.range.stop.column < pre.length) {c : Char} (hc : c ≠ '\\') :
    Begun (pre ++ [c]) ts pre.length [c] false where
  behind := h
  before := by simp
  reads := fun rest => by
    rw [List.drop_left]
    simp [glyphs_plain hc]

theorem first_backslash (h : ∀ t ∈ ts, t.range.stop.column < pre.length) :
    Begun (pre ++ ['\\']) ts pre.length [] true where
  behind := h
  before := by simp
  reads := fun rest => by
    rw [List.drop_left]
    rfl

theorem plain (h : Begun pre ts start word false) {c : Char} (hc : c ≠ '\\') :
    Begun (pre ++ [c]) ts start (c :: word) false where
  behind := h.behind
  before := Nat.lt_trans h.before (by simp)
  reads := fun rest => by
    rw [drop_concat h.before, h.reads]
    simp [glyphs_plain hc]

theorem literal (h : Begun pre ts start word true) (c : Char) :
    Begun (pre ++ [c]) ts start (c :: word) false where
  behind := h.behind
  before := Nat.lt_trans h.before (by simp)
  reads := fun rest => by
    rw [drop_concat h.before, h.reads]
    simp [glyphs_literal]

theorem backslash (h : Begun pre ts start word false) :
    Begun (pre ++ ['\\']) ts start word true where
  behind := h.behind
  before := Nat.lt_trans h.before (by simp)
  reads := fun rest => by
    rw [drop_concat h.before, h.reads]
    rfl

/-- A part that ends is what it covers. A last backslash stands for nothing. -/
theorem reads_token (h : Begun pre ts start word escaping) (line : Nat) :
    textOf (glyphs ((token line (String.ofList word.reverse) start pre.length).source pre)) =
      word.reverse := by
  obtain ⟨hstart, hstop⟩ :=
    range_token line (String.ofList word.reverse) (Nat.le_of_lt h.before)
  have hread := h.reads []
  rw [List.append_nil] at hread
  have hnothing : textOf (glyphs (if escaping then ['\\'] else [])) = [] := by
    cases escaping <;> rfl
  rw [hnothing, List.append_nil] at hread
  unfold Token.source
  rw [hstart, hstop, List.take_of_length_le (by rw [List.length_drop]), hread]

/-- The part ends, and the next character is behind it. -/
theorem close (h : Begun pre ts start word escaping) (hts : Lined line pre ts) (c : Char) :
    Lined line (pre ++ [c]) (ts ++ [token line (String.ofList word.reverse) start pre.length]) := by
  have hmono := hts.mono [c]
  obtain ⟨hstart, hstop⟩ :=
    range_token line (String.ofList word.reverse) (Nat.le_of_lt h.before)
  refine ⟨?_, ?_, ?_, ?_⟩
  · intro t ht
    rcases List.mem_append.1 ht with ht | ht
    · exact hts.line t ht
    · obtain rfl := List.mem_singleton.1 ht
      rw [Span.firstLine, Span.lastLine, hstart, hstop]
      exact ⟨rfl, rfl⟩
  · rw [List.flatMap_append, List.pairwise_append]
    refine ⟨hts.columns, by simp [hstart, hstop, h.before], fun x hx y hy => ?_⟩
    obtain ⟨t, ht, hx⟩ := List.mem_flatMap.1 hx
    have hline := hts.line t ht
    have hle := start_le_stop (hline.1.trans hline.2.symm)
    have hlt := h.behind t ht
    have hbefore := h.before
    simp only [List.mem_cons, List.not_mem_nil, or_false] at hx
    simp only [List.flatMap_singleton, List.mem_cons, List.not_mem_nil, or_false, hstart, hstop] at hy
    omega
  · intro t ht
    rcases List.mem_append.1 ht with ht | ht
    · exact hmono.inside t ht
    · obtain rfl := List.mem_singleton.1 ht
      rw [hstop]
      simp
  · intro t ht
    cases ts with
    | nil => cases ht
    | cons k ts =>
      rcases List.mem_append.1 ht with ht | ht
      · exact hmono.reads t ht
      · obtain rfl := List.mem_singleton.1 ht
        rw [source_append (by rw [hstart, hstop]; exact Nat.le_of_lt h.before) (by rw [hstop]),
          h.reads_token]
        exact String.toList_ofList.symm

end Begun

/-! ## Stages -/

/-- What has been read of a line at a stage. -/
def Sound (line : Nat) (pre : List Char) : Stage → Prop
  | .leading word _ => ∀ p ∈ word, p.column < pre.length
  | .afterKeyword _ k => Lined line pre [k]
  | .inName _ k start word escaping => Lined line pre [k] ∧ Begun pre [k] start word escaping
  | .afterName _ k n => Lined line pre [k, n]
  | .inDescription _ k n start word escaping =>
    Lined line pre [k, n] ∧ Begun pre [k, n] start word escaping
  | .complete a => Lined line pre a.parts ∧ a.range.start = a.keyword.range.start ∧
    (a.parts.getLast?.map fun t => t.range.stop) = some a.range.stop
  | .nameless => True

theorem sound_ofParts {m : Marker} {k : Token} {n d : Option Token}
    (h : Lined line pre (ofParts m k n d).parts) : Sound line pre (.complete (.ofParts m k n d)) := by
  have hlast : (ofParts m k n d).parts.getLast? = some ((d <|> n).getD k) := by
    cases n <;> cases d <;> rfl
  have hle : k.range.start ≤ ((d <|> n).getD k).range.stop :=
    h.start_le _ (List.mem_of_getLast? hlast)
  have hrange : (ofParts m k n d).range = ⟨k.range.start, ((d <|> n).getD k).range.stop, hle⟩ :=
    dif_pos hle
  refine ⟨h, ?_, ?_⟩
  · rw [hrange]
    rfl
  · rw [hlast, hrange]
    rfl

theorem sound_spaceAfterKeyword {k : Token} (h : Lined line pre [k]) (m : Marker) (c : Char) :
    Sound line pre (Stage.spaceAfterKeyword m k c) := by
  unfold Stage.spaceAfterKeyword
  split
  · split
    · exact sound_ofParts h
    · trivial
  · exact h

theorem sound_spaceAfterName {k n : Token} (h : Lined line pre [k, n]) (m : Marker) (c : Char) :
    Sound line pre (Stage.spaceAfterName m k n c) := by
  unfold Stage.spaceAfterName
  split
  · exact sound_ofParts h
  · exact h

/-- A keyword starts where one of the characters of its word stands. -/
theorem exists_of_keyword? {ks : Keywords} {word : List Placed} {m : Marker} {text : String}
    {first : Nat} (h : keyword? ks word = some (m, text, first)) : ∃ p ∈ word, p.column = first := by
  rcases keyword?_cases ks word with ⟨hnone, -⟩ | ⟨c, hmem, hsome, -⟩
  · rw [h] at hnone
    cases hnone
  · obtain rfl := Option.some.inj (h.symm.trans hsome)
    obtain ⟨e, -, he⟩ := List.mem_filterMap.1 hmem
    obtain ⟨-, he⟩ := Option.ite_none_right_eq_some.1 he
    obtain ⟨p, hp, he⟩ := Option.map_eq_some_iff.1 he
    exact ⟨p, List.mem_of_getElem? hp, by simpa using congrArg (fun e => e.2.2) he⟩

theorem sound_spaceInLeading {ks : Keywords} {word : List Placed}
    (h : ∀ p ∈ word, p.column < pre.length) (c : Char) :
    Sound line (pre ++ [c]) (Stage.spaceInLeading ks line pre.length word c) := by
  unfold Stage.spaceInLeading
  cases hk : keyword? ks word with
  | none => exact fun p hp => by cases hp
  | some e =>
    obtain ⟨m, text, first⟩ := e
    obtain ⟨p, hp, rfl⟩ := exists_of_keyword? hk
    exact sound_spaceAfterKeyword (.keyword (h p hp) c) m c

theorem sound_endDescription {m : Marker} {k n : Token} {escaping : Bool}
    (hts : Lined line pre [k, n]) (h : Begun pre [k, n] start word escaping) (c : Char) :
    Sound line (pre ++ [c]) (Stage.endDescription m k n line start pre.length word) := by
  unfold Stage.endDescription
  refine sound_ofParts ?_
  by_cases hw : word = []
  · rw [if_pos hw]
    exact hts.mono [c]
  · rw [if_neg hw]
    exact h.close hts c

theorem isSpace_of_endsLine {c : Char} (h : endsLine c = true) : isSpace c = true := by
  simp only [endsLine, Bool.or_eq_true, decide_eq_true_eq] at h
  rcases h with rfl | rfl <;> rfl

theorem sound_step (ks : Keywords) {s : Stage} (h : Sound line pre s) (c : Char) :
    Sound line (pre ++ [c]) (s.step ks line pre.length c) := by
  have hlength : pre.length < (pre ++ [c]).length := by simp
  cases s with
  | leading word escaping =>
    have hpush : Sound line (pre ++ [c]) (.leading (⟨c, pre.length⟩ :: word) false) := by
      intro p hp
      rcases List.mem_cons.1 hp with rfl | hp
      · exact hlength
      · exact Nat.lt_trans (h p hp) hlength
    rw [Stage.step]
    split
    · exact hpush
    · split
      · exact fun p hp => Nat.lt_trans (h p hp) hlength
      · split
        · exact sound_spaceInLeading h c
        · exact hpush
  | afterKeyword m k =>
    have hmono := Lined.mono h [c]
    rw [Stage.step]
    split
    · exact sound_spaceAfterKeyword hmono m c
    · split
      · next hc =>
        subst hc
        exact ⟨hmono, .first_backslash h.inside⟩
      · next hc => exact ⟨hmono, .first h.inside hc⟩
  | inName m k start word escaping =>
    obtain ⟨hts, hbegun⟩ := h
    have hmono := hts.mono [c]
    rw [Stage.step]
    split
    · next he =>
      obtain ⟨rfl, -⟩ := (Bool.and_eq_true _ _).mp he
      exact ⟨hmono, hbegun.literal c⟩
    · next he =>
      split
      · next hc =>
        subst hc
        obtain rfl : escaping = false := by simpa using he
        exact ⟨hmono, hbegun.backslash⟩
      · next hc =>
        split
        · exact sound_spaceAfterName (hbegun.close hts c) m c
        · next hspace =>
          -- only the end of the line is not escaped, and it is a space
          obtain rfl : escaping = false := by
            by_contra hescaping
            have hends : escaping = true → endsLine c = true := by simpa using he
            exact hspace (isSpace_of_endsLine (hends (by simpa using hescaping)))
          exact ⟨hmono, hbegun.plain hc⟩
  | afterName m k n =>
    have hmono := Lined.mono h [c]
    rw [Stage.step]
    split
    · exact sound_spaceAfterName hmono m c
    · split
      · next hc =>
        subst hc
        exact ⟨hmono, .first_backslash h.inside⟩
      · next hc => exact ⟨hmono, .first h.inside hc⟩
  | inDescription m k n start word escaping =>
    obtain ⟨hts, hbegun⟩ := h
    have hmono := hts.mono [c]
    rw [Stage.step]
    split
    · exact sound_endDescription hts hbegun c
    · split
      · next he =>
        subst he
        exact ⟨hmono, hbegun.literal c⟩
      · next he =>
        obtain rfl : escaping = false := by simpa using he
        split
        · next hc =>
          subst hc
          exact ⟨hmono, hbegun.backslash⟩
        · next hc => exact ⟨hmono, hbegun.plain hc⟩
  | complete a =>
    obtain ⟨hparts, hrange⟩ := h
    exact ⟨hparts.mono [c], hrange⟩
  | nameless => trivial

theorem sound_readAll (ks : Keywords) {s : Stage} (h : Sound line pre s) (cs : List Char) :
    Sound line (pre ++ cs) (Stage.readAll ks line pre.length cs s) := by
  induction cs generalizing pre s with
  | nil =>
    rw [List.append_nil]
    exact h
  | cons c cs ih =>
    have := ih (sound_step ks h c)
    rwa [List.append_assoc, List.length_append] at this

/-! ## Lines -/

/-- The mark of a line on its own. -/
def lineMark? (ks : Keywords) (l : Nat × String) : Option Mark := (readLine (.new ks) l).1

theorem stands_of_lineMark? {ks : Keywords} {l : Nat × String} {a : Mark}
    (h : lineMark? ks l = some a) : Stands l.1 l.2.toList a := by
  unfold lineMark? readLine at h
  split at h
  · cases h
  · rw [finish_read] at h
    have hstart : Sound l.1 [] .start := fun p hp => by cases hp
    have hsound := sound_readAll ks hstart (l.2.toList ++ ['\n'])
    rw [List.nil_append, List.length_nil] at hsound
    generalize Stage.readAll ks l.1 0 (l.2.toList ++ ['\n']) .start = s at h hsound
    cases s with
    | complete b =>
      obtain rfl : b = a := Option.some.inj h
      obtain ⟨hparts, hstart, hstop⟩ := hsound
      have hinside : ∀ t ∈ b.parts, t.range.stop.column ≤ l.2.toList.length := by
        intro t ht
        have := hparts.inside t ht
        rw [List.length_append, List.length_singleton] at this
        exact Nat.le_of_lt_succ this
      refine ⟨hparts.line, hparts.columns, hinside, hstart, hstop, fun t ht => ?_⟩
      -- no part covers the end of the line
      have hmem : t ∈ b.parts := List.mem_cons_of_mem _ ht
      have hline := hparts.line t hmem
      have hread := hparts.reads t ht
      rwa [source_append (start_le_stop (hline.1.trans hline.2.symm)) (hinside t hmem)] at hread
    | _ => cases h

/-- A line leaves the reader at the start of the next one. -/
theorem readLine_at_start (ks : Keywords) (n : Nat) (l : Nat × String) :
    (readLine ⟨ks, .start, 0, n⟩ l).1 = lineMark? ks l ∧
      ∃ m, (readLine ⟨ks, .start, 0, n⟩ l).2 = ⟨ks, .start, 0, m⟩ := by
  unfold lineMark? readLine
  split
  · exact ⟨rfl, n, rfl⟩
  · refine ⟨rfl, l.1, ?_⟩
    unfold Reader.finish Reader.read
    rw [foldl_readChar]
    rfl

theorem readLines_eq (ks : Keywords) (n : Nat) (ls : List (Nat × String)) :
    readLines ⟨ks, .start, 0, n⟩ ls = ls.filterMap (lineMark? ks) := by
  induction ls generalizing n with
  | nil => rfl
  | cons l ls ih =>
    obtain ⟨hmark, m, hnext⟩ := readLine_at_start ks n l
    have hline : readLine ⟨ks, .start, 0, n⟩ l = (lineMark? ks l, ⟨ks, .start, 0, m⟩) :=
      Prod.ext hmark hnext
    rw [readLines, hline]
    simp only
    rw [ih]
    cases h : lineMark? ks l with
    | none => rw [List.filterMap_cons_none h]; rfl
    | some a => rw [List.filterMap_cons_some h]; rfl

end Mark

/-! ## Pairs -/

namespace Pairing

/-- All marks that have come. -/
def all (p : Pairing) : List Mark :=
  p.pending ++ (p.regions.flatMap (fun r => [r.opener, r.closer]) ++ (p.tags ++ p.unmatched))

/-- In every region the opener is on a line before that of the closer. -/
def Forward (p : Pairing) : Prop :=
  ∀ r ∈ p.regions, r.opener.range.firstLine < r.closer.range.firstLine

/-- The opener that a closer is paired with, and the openers that still wait. -/
theorem exists_of_find? {p : Pairing} {a o : Mark} (h : p.pending.find? (fun o => Closes a o) = some o) :
    ∃ pre post, p.pending = pre ++ o :: post ∧
      p.pending.eraseP (fun o => Closes a o) = pre ++ post := by
  obtain ⟨ho, pre, post, heq, hpre⟩ := List.find?_eq_some_iff_append.1 h
  refine ⟨pre, post, heq, ?_⟩
  rw [heq, List.eraseP_append_right _ fun b hb => by simpa using hpre b hb, List.eraseP_cons, ho,
    cond_true]

theorem perm_push (p : Pairing) (a : Mark) : (p.push a).all.Perm (p.all ++ [a]) := by
  -- a pair takes its opener out of the middle of those that wait, so marks are counted
  refine List.perm_iff_count.2 fun b => ?_
  unfold push all
  cases a.marker with
  | tag =>
    simp only [List.count_append]
    omega
  | opener =>
    simp only [List.count_append, List.count_cons, List.count_nil]
    omega
  | closer =>
    simp only
    split
    · next o ho =>
      obtain ⟨pre, post, heq, herase⟩ := exists_of_find? ho
      simp only [herase]
      simp only [heq, List.flatMap_append, List.flatMap_singleton, List.count_append,
        List.count_cons, List.count_nil]
      omega
    · simp only [List.count_append]
      omega

theorem forward_push {p : Pairing} (h : p.Forward) {a : Mark}
    (ha : ∀ b ∈ p.all, b.range.firstLine < a.range.firstLine) : (p.push a).Forward := by
  unfold push
  cases a.marker with
  | tag => exact h
  | opener => exact h
  | closer =>
    simp only
    split
    · next o ho =>
      intro r hr
      rcases List.mem_append.1 hr with hr | hr
      · exact h r hr
      · obtain rfl := List.mem_singleton.1 hr
        exact ha o (List.mem_append_left _ (List.mem_of_find?_eq_some ho))
    · exact h

/-- Marks are all kept. -/
theorem perm_foldl_push (as : List Mark) (p : Pairing) : (as.foldl push p).all.Perm (p.all ++ as) := by
  induction as generalizing p with
  | nil => rw [List.foldl_nil, List.append_nil]
  | cons a as ih =>
    have := (ih (p.push a)).trans ((perm_push p a).append_right as)
    rwa [List.append_assoc] at this

/-- Where marks come line after line, no region closes before it opens. -/
theorem forward_foldl_push {as : List Mark} {p : Pairing} (h : p.Forward)
    (has : as.Pairwise fun a b => a.range.firstLine < b.range.firstLine)
    (hp : ∀ b ∈ p.all, ∀ a ∈ as, b.range.firstLine < a.range.firstLine) :
    (as.foldl push p).Forward := by
  induction as generalizing p with
  | nil => exact h
  | cons a as ih =>
    obtain ⟨hfirst, hrest⟩ := List.pairwise_cons.1 has
    have hforward := forward_push h fun b hb => hp b hb a (List.mem_cons_self ..)
    -- marks to come are behind all that have, the new one among them
    refine ih hforward hrest fun b hb c hc => ?_
    rcases List.mem_append.1 ((perm_push p a).mem_iff.1 hb) with hb | hb
    · exact hp b hb c (List.mem_cons_of_mem _ hc)
    · obtain rfl := List.mem_singleton.1 hb
      exact hfirst c hc

end Pairing

namespace Marks

/-- The marks of a document: openers and closers of its regions, tags, and problems. -/
def all (s : Marks) : List Mark :=
  s.regions.flatMap (fun r => [r.opener, r.closer]) ++ (s.tags ++ s.problems.map Problem.mark)

/-- Marks are all kept: each is part of a region, a tag or a problem. -/
theorem perm_ofList (as : List Mark) : (ofList as).all.Perm as := by
  refine .trans ?_ (Pairing.perm_foldl_push as .start)
  -- openers that wait become problems, the earliest first
  refine List.perm_iff_count.2 fun b => ?_
  have hproblems : (Pairing.finish (as.foldl Pairing.push .start)).problems.map Problem.mark =
      (as.foldl Pairing.push .start).unmatched ++ (as.foldl Pairing.push .start).pending.reverse := by
    simp [Pairing.finish, Function.comp_def]
  simp only [all, ofList, hproblems, Pairing.all, List.count_append, List.count_reverse]
  simp only [Pairing.finish]
  omega

theorem all_ofList {as : List Mark}
    (h : as.Pairwise fun a b => a.range.firstLine < b.range.firstLine) :
    (ofList as).all.Perm as ∧
      ∀ r ∈ (ofList as).regions, r.opener.range.firstLine < r.closer.range.firstLine :=
  ⟨perm_ofList as, Pairing.forward_foldl_push (p := .start) (fun r hr => by cases hr) h
    fun b hb => by cases hb⟩

end Marks

/-! ## Documents -/

namespace TextLines

/-- The marks of a document are those of its lines. -/
theorem mem_marks {ks : Keywords} {text : TextLines} {a : Mark} :
    a ∈ (text.marks ks).all ↔ ∃ l ∈ text.visits, Mark.lineMark? ks l = some a := by
  have hread : Mark.readLines (.new ks) text.visits = text.visits.filterMap (Mark.lineMark? ks) :=
    Mark.readLines_eq ks 0 _
  rw [marks, hread, (Marks.perm_ofList _).mem_iff, List.mem_filterMap]

/-- The marks of a string come line after line, and stand where the line has them. -/
theorem readLines_ofString (ks : Keywords) (s : String) :
    ((Mark.readLines (.new ks) (ofString s).visits).Pairwise fun a b =>
      a.range.firstLine < b.range.firstLine) ∧
      ∀ a ∈ Mark.readLines (.new ks) (ofString s).visits, a.range.firstLine < (ofString s).count ∧
        ∃ line, (ofString s).line? a.range.firstLine = some line ∧
          a.Stands a.range.firstLine line.toList := by
  obtain ⟨hpairwise, hvisits⟩ := (has_ofString s).pairwise_visits
  have hread : Mark.readLines (.new ks) (ofString s).visits =
      (ofString s).visits.filterMap (Mark.lineMark? ks) := Mark.readLines_eq ks 0 _
  rw [hread]
  constructor
  · refine hpairwise.filterMap _ fun l m hlm a ha b hb => ?_
    rw [(Mark.stands_of_lineMark? ha).firstLine, (Mark.stands_of_lineMark? hb).firstLine]
    exact hlm
  · intro a ha
    obtain ⟨l, hl, ha⟩ := List.mem_filterMap.1 ha
    obtain ⟨hline, hcount⟩ := hvisits l hl
    have hstands := Mark.stands_of_lineMark? ha
    rw [hstands.firstLine]
    exact ⟨hcount, l.2, hline, hstands⟩

theorem valuesAll_map_leaf {α : Type} (xs : List α) :
    Rose.valuesAll (xs.map fun x => Rose.node x []) = xs := by
  induction xs with
  | nil => rfl
  | cons x xs ih =>
    rw [List.map_cons, Rose.valuesAll_cons, ih]
    rfl

/-- Marks of a document are on lines of their own, with their parts where the line has them. Regions
open before they close, and the names of symbols are within them. -/
theorem placed_marks (ks : Keywords) (s : String) :
    (((ofString s).marks ks).all.map fun a => a.range.firstLine).Nodup ∧
      (∀ a ∈ ((ofString s).marks ks).all, ∃ line,
        (ofString s).line? a.range.firstLine = some line ∧
          a.Stands a.range.firstLine line.toList) ∧
      (∀ r ∈ ((ofString s).marks ks).regions,
        r.opener.range.firstLine < r.closer.range.firstLine) ∧
      (∀ f ∈ ((ofString s).marks ks).folds, f.first < f.last ∧ f.last < (ofString s).count) ∧
      ∀ symbol ∈ Rose.valuesAll ((ofString s).marks ks).symbols,
        symbol.range.Covers symbol.selection := by
  obtain ⟨hpairwise, hmarks⟩ := readLines_ofString ks s
  obtain ⟨hperm, hforward⟩ := Marks.all_ofList hpairwise
  have hstands : ∀ a ∈ ((ofString s).marks ks).all, a.range.firstLine < (ofString s).count ∧
      ∃ line, (ofString s).line? a.range.firstLine = some line ∧
        a.Stands a.range.firstLine line.toList := fun a ha => hmarks a (hperm.mem_iff.1 ha)
  have hopener : ∀ r ∈ ((ofString s).marks ks).regions, r.opener ∈ ((ofString s).marks ks).all :=
    fun r hr => List.mem_append_left _ (List.mem_flatMap.2 ⟨r, hr, by simp⟩)
  have hcloser : ∀ r ∈ ((ofString s).marks ks).regions, r.closer ∈ ((ofString s).marks ks).all :=
    fun r hr => List.mem_append_left _ (List.mem_flatMap.2 ⟨r, hr, by simp⟩)
  refine ⟨?_, fun a ha => (hstands a ha).2, hforward, ?_, ?_⟩
  · refine (hperm.map _).nodup_iff.2 (List.pairwise_map.2 (hpairwise.imp ?_))
    exact fun h => Nat.ne_of_lt h
  · intro f hf
    obtain ⟨r, hr, rfl⟩ := List.mem_map.1 hf
    obtain ⟨hcount, line, -, hcloses⟩ := hstands _ (hcloser r hr)
    have hlast : r.fold.last = r.closer.range.firstLine := hcloses.lastLine
    rw [hlast]
    exact ⟨hforward r hr, hcount⟩
  · intro symbol hsymbol
    unfold Marks.symbols at hsymbol
    rw [valuesAll_map_leaf] at hsymbol
    rcases List.mem_append.1 hsymbol with h | h
    · obtain ⟨r, hr, h⟩ := List.mem_filterMap.1 h
      obtain ⟨name, hname, rfl⟩ := Option.map_eq_some_iff.1 h
      obtain ⟨-, line, -, hopens⟩ := hstands _ (hopener r hr)
      have hcovers := hopens.covers (t := name) (by simp [Mark.parts, hname])
      -- the region reaches at least as far as its opener
      exact ⟨Position.le_trans (Position.min_le_left ..) hcovers.1,
        Position.le_trans hcovers.2 (Position.le_max_left ..)⟩
    · obtain ⟨a, ha, h⟩ := List.mem_filterMap.1 h
      obtain ⟨name, hname, rfl⟩ := Option.map_eq_some_iff.1 h
      obtain ⟨-, line, -, htag⟩ := hstands a (List.mem_append_right _ (List.mem_append_left _ ha))
      exact htag.covers (t := name) (by simp [Mark.parts, hname])

end TextLines

end SymbolOutline
