import SymbolOutline.Proofs.Edits
import SymbolOutline.Proofs.Placement

/-
Another name for a mark. Where a new name is put in place of the name of a mark, the line has the same
mark as before, but for that name and for the columns behind it (`lineMark?_onLine`).

The name stands between two points of its line (`exists_name`). In front of it the reader waits
behind the keyword, and so it reads any other name as it has read this one. Behind it the reader keeps the
name but looks at it no more, and from there on the stages of the two readings correspond step by
step (`renamed_step`).
-/

namespace SymbolOutline

/-- Where a column behind a gap comes to be once the gap is filled with a text of a given width. -/
def Span.behind (gap : Span) (width column : Nat) : Nat :=
  gap.start.column + width + (column - gap.stop.column)

/-- Where a position comes to be once a gap is filled: behind the gap, on the line where it stops,
characters move. -/
def Position.shifted (gap : Span) (width : Nat) (p : Position) : Position :=
  if p.line = gap.lastLine ∧ gap.stop.column ≤ p.column then
    { p with column := gap.behind width p.column }
  else p

/-- Where a span comes to be once a gap is filled. -/
def Span.shifted (s gap : Span) (width : Nat) : Span :=
  .between (s.start.shifted gap width) (s.stop.shifted gap width)

/-- Where a part of a mark comes to be once a gap is filled. -/
def Token.shifted (gap : Span) (width : Nat) (t : Token) : Token :=
  { t with range := t.range.shifted gap width }

/-- A part of a mark with another text in its place. -/
def Token.renamed (new : String) (t : Token) : Token := ⟨new, t.range.shifted t.range new.length⟩

/-- A mark with another name in the place of its name. What is behind the name moves. -/
def Mark.renamed (new : String) (a : Mark) : Mark :=
  match a.name with
  | none => a
  | some n =>
    { a with
      name := some (n.renamed new)
      description := a.description.map (·.shifted n.range new.length)
      range := a.range.shifted n.range new.length }

namespace Mark

/-! ## Gaps -/

section

variable {gap : Span} {width line first stop : Nat} {p : Position}

theorem shifted_of_le (hline : p.line = gap.lastLine) (h : gap.stop.column ≤ p.column) :
    p.shifted gap width = ⟨p.line, gap.behind width p.column⟩ := if_pos ⟨hline, h⟩

theorem shifted_of_lt (h : p.column < gap.stop.column) : p.shifted gap width = p :=
  if_neg fun h' => absurd h'.2 (Nat.not_le.2 h)

theorem behind_succ (h : gap.stop.column ≤ first) :
    gap.behind width (first + 1) = gap.behind width first + 1 := by
  unfold Span.behind
  omega

/-- A part behind the gap moves as a whole. -/
theorem shifted_token (text : String) (hline : line = gap.lastLine) (hfirst : gap.stop.column ≤ first)
    (hstop : first ≤ stop) : (token line text first stop).shifted gap width =
      token line text (gap.behind width first) (gap.behind width stop) := by
  obtain ⟨h₁, h₂⟩ := range_token line text hstop
  unfold Token.shifted Span.shifted
  rw [h₁, h₂, shifted_of_le hline hfirst, shifted_of_le hline (Nat.le_trans hfirst hstop)]
  rfl

theorem renamed_token (text new : String) (h : first < stop) :
    (token line text first stop).renamed new = token line new first (first + new.length) := by
  obtain ⟨h₁, h₂⟩ := range_token line text (Nat.le_of_lt h)
  unfold Token.renamed Span.shifted token at *
  generalize Span.between ⟨line, first⟩ ⟨line, stop⟩ = gap at *
  have hlast : gap.stop.line = gap.lastLine := rfl
  rw [shifted_of_lt (by rw [h₁, h₂]; exact h), shifted_of_le hlast (Nat.le_refl _), Span.behind, h₁, h₂,
    Nat.sub_self]
  rfl

theorem stop_shifted {s : Span} (h : s.start.shifted gap width ≤ s.stop.shifted gap width) :
    (s.shifted gap width).stop = s.stop.shifted gap width := by
  unfold Span.shifted Span.between
  rw [dif_pos h]

end

/-- A mark is renamed part by part. -/
theorem renamed_ofParts {line : Nat} {pre : List Char} {m : Marker} {k n : Token} {d : Option Token}
    (h : Lined line pre (ofParts m k (some n) d).parts) (new : String) :
    (ofParts m k (some n) d).renamed new =
      ofParts m k (some (n.renamed new)) (d.map (·.shifted n.range new.length)) := by
  have hle := h.start_le
  have hn := h.line n (by simp [ofParts, parts])
  have hcolumns := h.columns
  have hk : k.range.start.column < n.range.stop.column ∧
      n.range.start.column < n.range.stop.column := by
    simp only [ofParts, parts, Option.toList_some, List.cons_append, List.nil_append,
      List.flatMap_cons, List.pairwise_cons, List.mem_cons] at hcolumns
    exact ⟨hcolumns.1 _ (by simp), hcolumns.2.2.1 _ (by simp)⟩
  -- the last part moves as a whole, so where it stops is where the mark stops
  have hlast : ((d.map (·.shifted n.range new.length) <|> some (n.renamed new)).getD k).range.stop =
      ((d <|> some n).getD k).range.stop.shifted n.range new.length := by
    cases d with
    | none =>
      refine stop_shifted ?_
      rw [shifted_of_lt hk.2, shifted_of_le rfl (Nat.le_refl _), Span.behind]
      exact .inr ⟨hn.1.trans hn.2.symm, by simp only; omega⟩
    | some t =>
      have ht := h.line t (by simp [ofParts, parts])
      have hbehind : n.range.stop.column < t.range.start.column := by
        simp only [ofParts, parts, Option.toList_some, List.cons_append, List.nil_append,
          List.flatMap_cons, List.pairwise_cons, List.mem_cons] at hcolumns
        exact hcolumns.2.2.2.1 _ (by simp)
      have hstop := start_le_stop (ht.1.trans ht.2.symm)
      refine stop_shifted ?_
      rw [shifted_of_le (ht.1.trans hn.2.symm) (Nat.le_of_lt hbehind),
        shifted_of_le (ht.2.trans hn.2.symm) (by omega), Span.behind, Span.behind]
      exact .inr ⟨ht.1.trans ht.2.symm, by simp only; omega⟩
  have hrange : (ofParts m k (some n) d).range.shifted n.range new.length =
      .between k.range.start (((d <|> some n).getD k).range.stop.shifted n.range new.length) := by
    have hmem : (d <|> some n).getD k ∈ (ofParts m k (some n) d).parts := by
      cases d <;> simp [ofParts, parts]
    have hwhole : (ofParts m k (some n) d).range =
        ⟨k.range.start, ((d <|> some n).getD k).range.stop, hle _ hmem⟩ := dif_pos (hle _ hmem)
    unfold Span.shifted
    rw [hwhole, shifted_of_lt hk.1]
  unfold renamed ofParts at *
  simp only [hrange, hlast]

/-! ## Stages behind a name -/

/-- The name that a stage behind a name keeps. -/
def Stage.Keeps (n : Token) : Stage → Prop
  | afterName _ _ t => t = n
  | inDescription _ _ t _ _ _ => t = n
  | complete a => a.name = some n
  | _ => False

/-- A stage behind a name, with another name in its place. -/
def Stage.renamed (new : String) : Stage → Stage
  | afterName m k n => afterName m k (n.renamed new)
  | inDescription m k n start word escaping =>
    inDescription m k (n.renamed new) (n.range.behind new.length start) word escaping
  | complete a => complete (a.renamed new)
  | s => s

variable {ks : Keywords} {line column : Nat} {pre : List Char} {m : Marker} {k n : Token} {c : Char}

theorem renamed_spaceAfterName (h : Lined line pre [k, n]) (new : String) :
    (Stage.spaceAfterName m k n c).renamed new = Stage.spaceAfterName m k (n.renamed new) c ∧
      (Stage.spaceAfterName m k n c).Keeps n := by
  unfold Stage.spaceAfterName
  split
  · exact ⟨congrArg Stage.complete (renamed_ofParts h new), rfl⟩
  · exact ⟨rfl, rfl⟩

theorem renamed_endDescription {start : Nat} {word : List Char} {escaping : Bool}
    (hts : Lined line pre [k, n]) (h : Begun pre [k, n] start word escaping) (new : String) :
    (Stage.endDescription m k n line start pre.length word).renamed new =
        Stage.endDescription m k (n.renamed new) line (n.range.behind new.length start)
          (n.range.behind new.length pre.length) word ∧
      (Stage.endDescription m k n line start pre.length word).Keeps n := by
  have hn := hts.line n (by simp)
  unfold Stage.endDescription
  by_cases hw : word = []
  · simp only [if_pos hw]
    exact ⟨congrArg Stage.complete (renamed_ofParts hts new), rfl⟩
  · simp only [if_neg hw]
    refine ⟨congrArg Stage.complete ?_, rfl⟩
    rw [renamed_ofParts (h.close hts ' ') new, Option.map_some,
      shifted_token _ hn.2.symm (Nat.le_of_lt (h.behind n (by simp))) (Nat.le_of_lt h.before)]

/-- Behind a name, the reading with another name in its place goes on alike. -/
theorem renamed_step (ks : Keywords) {s : Stage} (hs : Sound line pre s) (hn : s.Keeps n) (c : Char)
    (new : String) :
    (s.step ks line pre.length c).renamed new =
        (s.renamed new).step ks line (n.range.behind new.length pre.length) c ∧
      (s.step ks line pre.length c).Keeps n := by
  cases s with
  | afterName m k t =>
    obtain rfl : t = n := hn
    rw [Stage.renamed, Stage.step, Stage.step]
    split_ifs
    · exact renamed_spaceAfterName hs new
    · exact ⟨rfl, rfl⟩
    · exact ⟨rfl, rfl⟩
  | inDescription m k t start word escaping =>
    obtain rfl : t = n := hn
    obtain ⟨hts, hbegun⟩ := hs
    rw [Stage.renamed, Stage.step, Stage.step]
    split_ifs
    · exact renamed_endDescription hts hbegun new
    · exact ⟨rfl, rfl⟩
    · exact ⟨rfl, rfl⟩
    · exact ⟨rfl, rfl⟩
  | complete a => exact ⟨rfl, hn⟩
  | _ => cases hn

theorem renamed_readAll (ks : Keywords) {s : Stage} (hs : Sound line pre s) (hn : s.Keeps n)
    (hpre : n.range.stop.column ≤ pre.length) (cs : List Char) (new : String) :
    (Stage.readAll ks line pre.length cs s).renamed new =
        Stage.readAll ks line (n.range.behind new.length pre.length) cs (s.renamed new) ∧
      (Stage.readAll ks line pre.length cs s).Keeps n := by
  induction cs generalizing pre s with
  | nil => exact ⟨rfl, hn⟩
  | cons c cs ih =>
    obtain ⟨hstep, hkeeps⟩ := renamed_step ks hs hn c new
    have := ih (sound_step ks hs c) hkeeps (by rw [List.length_append]; omega)
    rw [List.length_append, List.length_singleton, behind_succ hpre, hstep] at this
    exact this

/-! ## Where the name stands -/

theorem readAll_complete (ks : Keywords) (line column : Nat) (cs : List Char) (a : Mark) :
    Stage.readAll ks line column cs (.complete a) = .complete a := by
  induction cs generalizing column with
  | nil => rfl
  | cons c cs ih => exact ih _

theorem readAll_nameless (ks : Keywords) (line column : Nat) (cs : List Char) :
    Stage.readAll ks line column cs .nameless = .nameless := by
  induction cs generalizing column with
  | nil => rfl
  | cons c cs ih => exact ih _

/-- The name of a mark: in a line that is read from a stage and a column on it starts behind `pre`, it is
written `body`, and the character behind it is a space. -/
structure NameAt (ks : Keywords) (line column : Nat) (s : Stage) (pre body : List Char) (space : Char)
    (m : Marker) (k n : Token) : Prop where
  ne_nil : body ≠ []
  isSpace : isSpace space = true
  before : Stage.readAll ks line column pre s = .afterKeyword m k
  name : n = token line n.text (column + pre.length) (column + pre.length + body.length)
  behind : Stage.readAll ks line (column + pre.length) (body ++ [space]) (.afterKeyword m k) =
    Stage.spaceAfterName m k n space

variable {cs : List Char} {a : Mark}

/-- One more character in front. -/
theorem NameAt.cons {s s' : Stage} {body : List Char} {space : Char}
    (hstep : s.step ks line column c = s') (h : NameAt ks line (column + 1) s' pre body space m k n) :
    NameAt ks line column s (c :: pre) body space m k n := by
  have hcolumn : column + (c :: pre).length = column + 1 + pre.length := by
    rw [List.length_cons]
    omega
  refine ⟨h.ne_nil, h.isSpace, ?_, ?_, ?_⟩
  · rw [Stage.readAll, hstep]
    exact h.before
  · rw [hcolumn]
    exact h.name
  · rw [hcolumn]
    exact h.behind

/-- Where a name is to come, the line does not end behind the keyword. -/
theorem spaceAfterKeyword_eq
    (h : Stage.readAll ks line column cs (Stage.spaceAfterKeyword m k c) = .complete a)
    (hn : a.name ≠ none) : Stage.spaceAfterKeyword m k c = .afterKeyword m k := by
  unfold Stage.spaceAfterKeyword at *
  split_ifs at h ⊢ with he hm
  · rw [readAll_complete] at h
    cases h
    exact absurd rfl hn
  · rw [readAll_nameless] at h
    cases h
  · rfl

/-- A name ends at a space. -/
theorem exists_space_of_inName {first : Nat} {word : List Char} {escaping : Bool}
    (h : Stage.readAll ks line column cs (.inName m k first word escaping) = .complete a) :
    ∃ body space post text, cs = body ++ space :: post ∧ isSpace space = true ∧
      Stage.readAll ks line column (body ++ [space]) (.inName m k first word escaping) =
        Stage.spaceAfterName m k (token line text first (column + body.length)) space := by
  induction cs generalizing column word escaping with
  | nil => cases h
  | cons c cs ih =>
    rw [Stage.readAll] at h
    by_cases hs : isSpace c = true ∧ ¬ (escaping && !endsLine c) = true
    · refine ⟨[], c, cs, String.ofList word.reverse, rfl, hs.1, ?_⟩
      have hc : c ≠ '\\' := by
        rintro rfl
        cases hs.1
      rw [List.nil_append, Stage.readAll, Stage.readAll, Stage.step, if_neg hs.2, if_neg hc, if_pos hs.1]
      rfl
    · -- the name goes on
      obtain ⟨word', escaping', hstep⟩ : ∃ word' escaping',
          (Stage.inName m k first word escaping).step ks line column c =
            .inName m k first word' escaping' := by
        rw [Stage.step]
        split_ifs with he hc hspace
        · exact ⟨_, _, rfl⟩
        · exact ⟨_, _, rfl⟩
        · exact absurd ⟨hspace, he⟩ hs
        · exact ⟨_, _, rfl⟩
      rw [hstep] at h
      obtain ⟨body, space, post, text, rfl, hspace, hread⟩ := ih h
      refine ⟨c :: body, space, post, text, rfl, hspace, ?_⟩
      rw [List.cons_append, Stage.readAll, hstep, hread, List.length_cons, Nat.add_assoc,
        Nat.add_comm 1]

/-- Behind a keyword there may be spaces, and then there is the name. -/
theorem exists_name_of_afterKeyword
    (h : Stage.readAll ks line column cs (.afterKeyword m k) = .complete a) (hn : a.name ≠ none) :
    ∃ pre body space post n, cs = pre ++ (body ++ space :: post) ∧
      NameAt ks line column (.afterKeyword m k) pre body space m k n := by
  induction cs generalizing column with
  | nil => cases h
  | cons c cs ih =>
    by_cases hs : isSpace c = true
    · have hstep : (Stage.afterKeyword m k).step ks line column c = Stage.spaceAfterKeyword m k c := by
        rw [Stage.step, if_pos hs]
      rw [Stage.readAll, hstep] at h
      have hstay := spaceAfterKeyword_eq h hn
      rw [hstay] at h
      obtain ⟨pre, body, space, post, n, rfl, hname⟩ := ih h
      exact ⟨c :: pre, body, space, post, n, rfl, hname.cons (hstep.trans hstay)⟩
    · obtain ⟨word, escaping, hstep⟩ : ∃ word escaping,
          (Stage.afterKeyword m k).step ks line column c = .inName m k column word escaping := by
        rw [Stage.step, if_neg hs]
        split_ifs
        · exact ⟨_, _, rfl⟩
        · exact ⟨_, _, rfl⟩
      rw [Stage.readAll, hstep] at h
      obtain ⟨body, space, post, text, rfl, hspace, hread⟩ := exists_space_of_inName h
      have hlength : column + (c :: body).length = column + 1 + body.length := by
        rw [List.length_cons]
        omega
      refine ⟨[], c :: body, space, post, token line text column (column + (c :: body).length), rfl,
        List.cons_ne_nil _ _, hspace, rfl, rfl, ?_⟩
      rw [hlength, List.length_nil, Nat.add_zero, List.cons_append, Stage.readAll, hstep, hread]

/-- What a word ends with is a keyword, and made of characters of the word. -/
theorem mem_of_keyword? {word : List Placed} {text : String} {first : Nat}
    (h : keyword? ks word = some (m, text, first)) :
    (m, text) ∈ ks.entries ∧ ∀ c ∈ text.toList, ∃ p ∈ word, p.char = c := by
  rcases keyword?_cases ks word with ⟨hnone, -⟩ | ⟨e, hmem, hsome, -⟩
  · rw [h] at hnone
    cases hnone
  · obtain rfl := Option.some.inj (h.symm.trans hsome)
    have hplain : (word.map Placed.char).reverse = textOf ((word.map Placed.char).reverse.map .plain) :=
      (textOf_map_plain _).symm
    obtain ⟨hends, hsuffix⟩ := (mem_candidates hplain).1 ⟨first, hmem⟩
    refine ⟨hends, fun c hc => ?_⟩
    have := hsuffix.mem hc
    rw [textOf_map_plain, List.mem_reverse] at this
    exact List.mem_map.1 this

/-- Before the end of the keyword the reader stays there, or it finds the keyword. -/
theorem step_leading (ks : Keywords) (line column : Nat) (c : Char) (word : List Placed)
    (escaping : Bool) :
    (∃ word' escaping', (Stage.leading word escaping).step ks line column c = .leading word' escaping' ∧
        ∀ p ∈ word', p ∈ word ∨ p.char = c) ∨
      ∃ m text first, keyword? ks word = some (m, text, first) ∧
        (Stage.leading word escaping).step ks line column c =
          Stage.spaceAfterKeyword m (token line text first column) c := by
  have hpush : ∀ p ∈ (⟨c, column⟩ : Placed) :: word, p ∈ word ∨ p.char = c := by
    intro p hp
    rcases List.mem_cons.1 hp with rfl | hp
    · exact .inr rfl
    · exact .inl hp
  rw [Stage.step]
  split_ifs
  · exact .inl ⟨_, _, rfl, hpush⟩
  · exact .inl ⟨_, _, rfl, fun p hp => .inl hp⟩
  · unfold Stage.spaceInLeading
    cases hk : keyword? ks word with
    | none => exact .inl ⟨_, _, rfl, fun p hp => by cases hp⟩
    | some e => exact .inr ⟨_, _, _, rfl, rfl⟩
  · exact .inl ⟨_, _, rfl, hpush⟩

/-- In front of the keyword there is nothing that matters, and behind it there is the name. -/
theorem exists_name {word : List Placed} {escaping : Bool}
    (h : Stage.readAll ks line column cs (.leading word escaping) = .complete a) (hn : a.name ≠ none) :
    ∃ pre body space post m k n, cs = pre ++ (body ++ space :: post) ∧
      NameAt ks line column (.leading word escaping) pre body space m k n ∧
      (m, k.text) ∈ ks.entries ∧ ∀ c ∈ k.text.toList, (∃ p ∈ word, p.char = c) ∨ c ∈ pre := by
  induction cs generalizing column word escaping with
  | nil => cases h
  | cons c cs ih =>
    rw [Stage.readAll] at h
    rcases step_leading ks line column c word escaping with
      ⟨word', escaping', hstep, hword⟩ | ⟨m, text, first, hk, hstep⟩
    · rw [hstep] at h
      obtain ⟨pre, body, space, post, m, k, n, rfl, hname, hentry, hchars⟩ := ih h
      refine ⟨c :: pre, body, space, post, m, k, n, rfl, hname.cons hstep, hentry, fun d hd => ?_⟩
      rcases hchars d hd with ⟨p, hp, rfl⟩ | hd
      · rcases hword p hp with hp | hp
        · exact .inl ⟨p, hp, rfl⟩
        · exact .inr (hp ▸ List.mem_cons_self ..)
      · exact .inr (List.mem_cons_of_mem _ hd)
    · rw [hstep] at h
      have hstay := spaceAfterKeyword_eq h hn
      rw [hstay] at h
      obtain ⟨pre, body, space, post, n, rfl, hname⟩ := exists_name_of_afterKeyword h hn
      obtain ⟨hentry, hchars⟩ := mem_of_keyword? hk
      exact ⟨c :: pre, body, space, post, m, _, n, rfl, hname.cons (hstep.trans hstay), hentry,
        fun d hd => .inl (hchars d hd)⟩

/-! ## Lines -/

/-- Behind a keyword, any text without spaces and backslashes is a name. -/
theorem readAll_inName {new : List Char} (hnew : ∀ c ∈ new, c ≠ '\\' ∧ isSpace c = false)
    (first : Nat) (word : List Char) :
    Stage.readAll ks line column new (.inName m k first word false) =
      .inName m k first (new.reverse ++ word) false := by
  induction new generalizing column word with
  | nil => rfl
  | cons c new ih =>
    obtain ⟨hc, hs⟩ := hnew c (List.mem_cons_self ..)
    have hstep : (Stage.inName m k first word false).step ks line column c =
        .inName m k first (c :: word) false := by
      rw [Stage.step, Bool.false_and, if_neg Bool.false_ne_true, if_neg hc, if_neg (by simp [hs])]
    rw [Stage.readAll, hstep, ih fun d hd => hnew d (List.mem_cons_of_mem _ hd), List.reverse_cons,
      List.append_assoc]
    rfl

/-- A new name is read up to the space behind it. -/
theorem readAll_newName {new : List Char} (hnil : new ≠ [])
    (hnew : ∀ c ∈ new, c ≠ '\\' ∧ isSpace c = false) {space : Char} (hspace : isSpace space = true) :
    Stage.readAll ks line column (new ++ [space]) (.afterKeyword m k) =
      Stage.spaceAfterName m k (token line (String.ofList new) column (column + new.length)) space := by
  obtain ⟨c, rest, rfl⟩ := List.exists_cons_of_ne_nil hnil
  obtain ⟨hc, hs⟩ := hnew c (List.mem_cons_self ..)
  have hstep : (Stage.afterKeyword m k).step ks line column c = .inName m k column [c] false := by
    rw [Stage.step, if_neg (by simp [hs]), if_neg hc]
  have hplain : space ≠ '\\' := by
    rintro rfl
    cases hspace
  rw [List.cons_append, Stage.readAll, hstep, Stage.readAll_append,
    readAll_inName fun d hd => hnew d (List.mem_cons_of_mem _ hd), Stage.readAll, Stage.readAll,
    Stage.step, Bool.false_and, if_neg Bool.false_ne_true, if_neg hplain, if_pos hspace]
  simp [Nat.add_assoc, Nat.add_comm 1]

theorem lined_of_spaceAfterName (h : Sound line pre (Stage.spaceAfterName m k n c)) :
    Lined line pre [k, n] := by
  unfold Stage.spaceAfterName at h
  split at h
  · exact h.1
  · exact h

/-- What the reader knows behind the name. -/
theorem NameAt.sound {body : List Char} {space : Char}
    (h : NameAt ks line 0 .start pre body space m k n) :
    Stage.readAll ks line 0 (pre ++ (body ++ [space])) .start = Stage.spaceAfterName m k n space ∧
      Sound line (pre ++ (body ++ [space])) (Stage.spaceAfterName m k n space) := by
  have hbehind : Stage.readAll ks line 0 (pre ++ (body ++ [space])) .start =
      Stage.spaceAfterName m k n space := by
    rw [Stage.readAll_append, h.before]
    exact h.behind
  have hstart : Sound line [] .start := fun p hp => by cases hp
  have := sound_readAll ks hstart (pre ++ (body ++ [space]))
  rw [List.nil_append, List.length_nil, hbehind] at this
  exact ⟨hbehind, this⟩

/-- The same reading with a new name where the name stands. -/
theorem readAll_rename {post body : List Char} {space : Char} {new : String}
    (hread : Stage.readAll ks line 0 (pre ++ (body ++ space :: post)) .start = .complete a)
    (hname : NameAt ks line 0 .start pre body space m k n) (hnil : new ≠ "")
    (hnew : ∀ c ∈ new.toList, c ≠ '\\' ∧ isSpace c = false) :
    a.name = some n ∧
      Stage.readAll ks line 0 (pre ++ (new.toList ++ space :: post)) .start =
        .complete (a.renamed new) := by
  have hcut : ∀ word : List Char, pre ++ (word ++ space :: post) = pre ++ (word ++ [space]) ++ post :=
    fun word => by simp
  obtain ⟨hbehind, hsound⟩ := hname.sound
  have hlined := lined_of_spaceAfterName hsound
  rw [hcut, Stage.readAll_append, hbehind, Nat.zero_add] at hread
  -- from behind the name on the stages of the two readings correspond
  obtain ⟨hspace, hkeeps⟩ := renamed_spaceAfterName (m := m) (c := space) hlined new
  obtain ⟨hrest, hkept⟩ := renamed_readAll ks hsound hkeeps
    (Nat.le_of_lt (hlined.inside n (by simp))) post new
  rw [hread] at hrest hkept
  refine ⟨hkept, ?_⟩
  have hlt : 0 + pre.length < 0 + pre.length + body.length :=
    Nat.lt_add_of_pos_right (List.length_pos_of_ne_nil hname.ne_nil)
  have hfresh : n.renamed new =
      token line (String.ofList new.toList) (0 + pre.length) (0 + pre.length + new.toList.length) := by
    rw [hname.name, renamed_token _ _ hlt, String.ofList_toList, String.length_toList]
  have hcolumn : n.range.behind new.length (pre ++ (body ++ [space])).length =
      0 + (pre ++ (new.toList ++ [space])).length := by
    obtain ⟨h₁, h₂⟩ := range_token line n.text (Nat.le_of_lt hlt)
    unfold Span.behind
    rw [hname.name, h₁, h₂]
    simp only [List.length_append, String.length_toList]
    omega
  rw [hspace, hfresh, ← readAll_newName (by simpa using hnil) hnew hname.isSpace, hcolumn] at hrest
  rw [hcut, Stage.readAll_append, Stage.readAll_append _ _ _ pre, hname.before]
  exact hrest.symm

/-- The name that is read where the name stands is that of the mark. -/
theorem name_of_nameAt {post body : List Char} {space : Char}
    (hread : Stage.readAll ks line 0 (pre ++ (body ++ space :: post)) .start = .complete a)
    (hname : NameAt ks line 0 .start pre body space m k n) : a.name = some n :=
  (readAll_rename hread hname (by decide : "x" ≠ "") (by simp [isSpace])).1

/-- A line has a mark exactly if it is not blank and is read up to the mark. -/
theorem lineMark?_eq_some {l : Nat × String} : lineMark? ks l = some a ↔
    Text.isBlankText l.2 = false ∧
      Stage.readAll ks l.1 0 (l.2.toList ++ ['\n']) .start = .complete a := by
  unfold lineMark? readLine
  cases hb : Text.isBlankText l.2 with
  | true => simp
  | false =>
    simp only [Bool.false_eq_true, if_false, true_and]
    rw [finish_read]
    cases Stage.readAll ks l.1 0 (l.2.toList ++ ['\n']) .start <;> simp [Stage.mark?]

/-- A line whose mark has a name, cut where the name stands. Whatever is put there, what is in front of it
and behind it stays. -/
theorem exists_name_of_lineMark? {l : Nat × String} (ha : lineMark? ks l = some a) (hn : a.name = some n) :
    ∃ pre body space post tail m k, NameAt ks l.1 0 .start pre body space m k n ∧
      ((m, k.text) ∈ ks.entries ∧ ∀ c ∈ k.text.toList, c ∈ pre) ∧ tail ++ ['\n'] = space :: post ∧
      Stage.readAll ks l.1 0 (pre ++ (body ++ space :: post)) .start = .complete a ∧
      ∀ new, TextEdit.onLine ⟨n.range, new⟩ l = (l.1, String.ofList (pre ++ (new.toList ++ tail))) := by
  have hstands := stands_of_lineMark? ha
  have hpart : n ∈ a.parts := by simp [parts, hn]
  have hstop := hstands.inside n hpart
  have hstart := Nat.le_trans (start_le_stop ((hstands.line n hpart).1.trans
    (hstands.line n hpart).2.symm)) hstop
  obtain ⟨-, hread⟩ := lineMark?_eq_some.1 ha
  obtain ⟨pre, body, space, post, m, k, t, hline, hname, hentry, hchars⟩ :=
    exists_name hread (by simp [hn])
  rw [hline] at hread
  obtain rfl : t = n := Option.some.inj ((name_of_nameAt hread hname).symm.trans hn)
  have hcolumns : t.range.start.column = pre.length ∧
      t.range.stop.column = (pre ++ body).length := by
    obtain ⟨h₁, h₂⟩ := range_token l.1 t.text (Nat.le_add_right (0 + pre.length) body.length)
    rw [hname.name, h₁, h₂, List.length_append, Nat.zero_add]
    exact ⟨rfl, rfl⟩
  have hpre : l.2.toList.take t.range.start.column = pre := by
    have htake : (l.2.toList ++ ['\n']).take t.range.start.column = l.2.toList.take t.range.start.column :=
      List.take_append_of_le_length hstart
    rw [hline, hcolumns.1, List.take_left] at htake
    rw [hcolumns.1, ← htake]
  have hpost : l.2.toList.drop t.range.stop.column ++ ['\n'] = space :: post := by
    rw [← List.drop_append_of_le_length hstop, hline, hcolumns.2, ← List.append_assoc, List.drop_left]
  refine ⟨pre, body, space, post, _, m, k, hname, ⟨hentry, fun c hc => ?_⟩, hpost, hread, fun new => ?_⟩
  · rcases hchars c hc with ⟨p, hp, -⟩ | hc
    · cases hp
    · exact hc
  · unfold TextEdit.onLine
    rw [if_pos (hstands.line t hpart).1.symm, hpre]

/-- With a new name in place of its name, a line has the same mark, but for the name and for the columns
behind it. Keywords that are not blank keep the line from becoming blank. -/
theorem lineMark?_onLine {l : Nat × String} {new : String}
    (hks : ∀ e ∈ ks.entries, Text.isBlankText e.2 = false) (ha : lineMark? ks l = some a)
    (hn : a.name = some n) (hnil : new ≠ "")
    (hnew : ∀ c ∈ new.toList, c ≠ '\\' ∧ isSpace c = false) :
    lineMark? ks (TextEdit.onLine ⟨n.range, new⟩ l) = some (a.renamed new) := by
  obtain ⟨pre, body, space, post, tail, m, k, hname, ⟨hentry, hchars⟩, htail, hread, honline⟩ :=
    exists_name_of_lineMark? ha hn
  obtain ⟨-, hrename⟩ := readAll_rename hread hname hnil hnew
  rw [honline, lineMark?_eq_some, String.toList_ofList, List.append_assoc, List.append_assoc, htail]
  refine ⟨?_, hrename⟩
  -- the keyword stands in front of the name
  obtain ⟨c, hc, hblank⟩ := List.all_eq_false.1 (hks _ hentry)
  refine List.all_eq_false.2 ⟨c, ?_, hblank⟩
  rw [String.toList_ofList]
  exact List.mem_append_left _ (hchars c hc)

end Mark

end SymbolOutline
