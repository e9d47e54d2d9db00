import SymbolOutline.Proofs.Afresh
import SymbolOutline.Proofs.Disguise
import SymbolOutline.Proofs.Renaming

/-
Empty names (`nameText?_eq_empty_iff`). A name begins with whatever character follows the spaces behind
the keyword, and a backslash at the end of the line stands for nothing. So there is one way to write an
empty name: a backslash and nothing more. Every other name has a character.

Whatever was asked of a reader before, and however its line was numbered, the name it finds is what the
characters that the name covers stand for (`Stage.Spelled`), and it covers at least one.
-/

namespace SymbolOutline

namespace Mark

/-- The name of a mark, on a line that says `text`, is written as a backslash and nothing more. -/
def Bare (text : List Char) (a : Mark) : Prop := ∃ n ∈ a.name, n.source text = ['\\']

/-! ## Names that have been read -/

/-- What has been read spells a part: the part covers some of it, up to a character behind, and is what
it covers. -/
structure Spells (pre : List Char) (t : Token) : Prop where
  columns : t.range.start.column < t.range.stop.column
  inside : t.range.stop.column < pre.length
  reads : textOf (glyphs (t.source pre)) = t.text.toList

/-- One character and nothing else stands for nothing. -/
theorem textOf_glyphs_eq_nil {cs : List Char} : textOf (glyphs cs) = [] ↔ cs = [] ∨ cs = ['\\'] := by
  fun_cases glyphs cs with
  | case1 => simp
  | case2 => simp
  | case3 c hc => simp [hc]
  | case4 d cs => simp
  | case5 c d cs hc => simp

namespace Spells

variable {pre : List Char} {t : Token}

theorem mono (h : Spells pre t) (more : List Char) : Spells (pre ++ more) t where
  columns := h.columns
  inside := by
    rw [List.length_append]
    exact Nat.lt_add_right _ h.inside
  reads := by
    rw [source_append (Nat.le_of_lt h.columns) (Nat.le_of_lt h.inside)]
    exact h.reads

/-- A part is empty only if it is written as a lone backslash. -/
theorem text_eq_empty_iff (h : Spells pre t) : t.text = "" ↔ t.source pre = ['\\'] := by
  have hsource : t.source pre ≠ [] := by
    unfold Token.source
    rw [← List.length_pos_iff, List.length_take, List.length_drop]
    have := h.columns
    have := h.inside
    omega
  rw [← String.toList_eq_nil_iff, ← h.reads, textOf_glyphs_eq_nil, or_iff_right hsource]

end Spells

/-- The part that a space ends. -/
theorem Begun.spells {pre word : List Char} {start : Nat} {escaping : Bool}
    (h : Begun pre [] start word escaping) (line : Nat) (c : Char) :
    Spells (pre ++ [c]) (token line (String.ofList word.reverse) start pre.length) := by
  obtain ⟨hstart, hstop⟩ := range_token line (String.ofList word.reverse) (Nat.le_of_lt h.before)
  refine ⟨?_, ?_, ?_⟩
  · rw [hstart, hstop]
    exact h.before
  · rw [hstop]
    simp
  · rw [source_append (by rw [hstart, hstop]; exact Nat.le_of_lt h.before) (by rw [hstop]),
      h.reads_token]
    exact String.toList_ofList.symm

namespace Stage

variable {pre : List Char} {line : Nat} {m : Marker} {k n : Token}

/-- What has been read spells the name of a stage, as far as it has been read. -/
def Spelled (pre : List Char) : Stage → Prop
  | inName _ _ start word escaping => Begun pre [] start word escaping
  | afterName _ _ n => Spells pre n
  | inDescription _ _ n _ _ _ => Spells pre n
  | complete a => ∀ n ∈ a.name, Spells pre n
  | _ => True

theorem spelled_spaceAfterKeyword (pre : List Char) (m : Marker) (k : Token) (c : Char) :
    (spaceAfterKeyword m k c).Spelled pre := by
  unfold spaceAfterKeyword
  split
  · split
    · exact fun n hn => by cases hn
    · trivial
  · trivial

theorem spelled_ofParts (h : Spells pre n) (m : Marker) (k : Token) (d : Option Token) :
    (complete (.ofParts m k (some n) d)).Spelled pre := by
  intro t ht
  obtain rfl := Option.some.inj ht
  exact h

theorem spelled_spaceAfterName (h : Spells pre n) (m : Marker) (k : Token) (c : Char) :
    (spaceAfterName m k n c).Spelled pre := by
  unfold spaceAfterName
  split
  · exact spelled_ofParts h m k none
  · exact h

theorem spelled_step (ks : Keywords) (line : Nat) {s : Stage} (h : s.Spelled pre) (c : Char) :
    (s.step ks line pre.length c).Spelled (pre ++ [c]) := by
  cases s with
  | leading word escaping =>
    rcases step_leading ks line pre.length c word escaping with
      ⟨word', escaping', hstep, -⟩ | ⟨m, text, first, -, hstep⟩
    · rw [hstep]
      trivial
    · rw [hstep]
      exact spelled_spaceAfterKeyword ..
  | afterKeyword m k =>
    rw [step]
    split_ifs with hspace hc
    · exact spelled_spaceAfterKeyword ..
    · subst hc
      exact .first_backslash (fun t ht => by cases ht)
    · exact .first (fun t ht => by cases ht) hc
  | inName m k start word escaping =>
    rw [step]
    split_ifs with he hc hspace
    · obtain ⟨rfl, -⟩ := (Bool.and_eq_true _ _).mp he
      exact Begun.literal h c
    · subst hc
      obtain rfl : escaping = false := by simpa using he
      exact Begun.backslash h
    · exact spelled_spaceAfterName (Begun.spells h line c) m k c
    · -- only the end of the line is not escaped, and it is a space
      obtain rfl : escaping = false := by
        by_contra hescaping
        have hends : escaping = true → endsLine c = true := by simpa using he
        exact hspace (isSpace_of_endsLine (hends (by simpa using hescaping)))
      exact Begun.plain h hc
  | afterName m k n =>
    have hmono := Spells.mono h [c]
    rw [step]
    split_ifs
    · exact spelled_spaceAfterName hmono m k c
    · exact hmono
    · exact hmono
  | inDescription m k n start word escaping =>
    have hmono := Spells.mono h [c]
    rw [step]
    split_ifs
    · exact spelled_ofParts hmono m k _
    · exact hmono
    · exact hmono
    · exact hmono
  | complete a => exact fun n hn => (h n hn).mono [c]
  | nameless => trivial

end Stage

/-! ## Calls -/

namespace Reader

variable {pre : List Char} {r : Reader}

/-- A reader knows what it has read of a line. -/
structure Knows (pre : List Char) (r : Reader) : Prop where
  column : r.column = pre.length
  named : r.stage.Named
  spelled : r.stage.Spelled pre

theorem Knows.readChar (h : r.Knows pre) (c : Char) : (r.readChar c).Knows (pre ++ [c]) where
  column := by
    rw [List.length_append, ← h.column]
    rfl
  named := Stage.named_step _ _ _ c h.named
  spelled := by
    have := Stage.spelled_step r.keywords r.line h.spelled c
    rwa [← h.column] at this

theorem Knows.foldl_readChar (h : r.Knows pre) (cs : List Char) :
    (cs.foldl Reader.readChar r).Knows (pre ++ cs) := by
  induction cs generalizing pre r with
  | nil => rwa [List.append_nil]
  | cons c cs ih =>
    have := ih (h.readChar c)
    rwa [List.append_assoc] at this

theorem Knows.read (h : r.Knows pre) (part : String) (line : Nat) :
    (r.read part line).Knows (pre ++ part.toList) :=
  Knows.foldl_readChar (r := { r with line }) ⟨h.column, h.named, h.spelled⟩ _

/-- At the start of a line nothing has been read of it. -/
theorem knows_start (ks : Keywords) (line : Nat) : Knows [] ⟨ks, .start, 0, line⟩ :=
  ⟨rfl, trivial, trivial⟩

/-- The characters of the line that a reader is in after calls. -/
def typed (calls : List Call) : List Char := (pending calls).flatMap fun p => p.1.toList

theorem knows_readParts (h : r.Knows pre) (parts : List (String × Nat)) :
    (r.readParts parts).Knows (pre ++ parts.flatMap fun p => p.1.toList) := by
  induction parts generalizing pre r with
  | nil => rwa [List.flatMap_nil, List.append_nil]
  | cons p parts ih =>
    have := ih (h.read p.1 p.2)
    rwa [List.append_assoc] at this

theorem knows_foldl_call (ks : Keywords) (calls : List Call) :
    (calls.foldl call (new ks)).Knows (typed calls) := by
  obtain ⟨line, hcalls⟩ := foldl_call ks calls
  rw [hcalls]
  exact knows_readParts (knows_start _ line) _

/-- A mark that a reader finds is named unless it is a closer, and its name is empty only if it is bare. -/
theorem Knows.finish {a : Mark} (h : r.Knows pre) (ha : r.finish.1 = some a) :
    a.Named ∧ (a.nameText? = some "" ↔ a.Bare pre) := by
  obtain ⟨-, hnamed, hspelled⟩ := h.readChar '\n'
  unfold Reader.finish at ha
  simp only at ha
  generalize (r.readChar '\n').stage = s at ha hnamed hspelled
  cases s with
  | complete b =>
    obtain rfl : b = a := Option.some.inj ha
    refine ⟨hnamed, ?_⟩
    unfold nameText? Bare
    cases hn : b.name with
    | none => simp
    | some n =>
      -- the name does not cover the end of the line
      have hspells : Spells (pre ++ ['\n']) n := hspelled n hn
      have hinside := hspells.inside
      rw [List.length_append, List.length_singleton] at hinside
      have hsource := source_append (Nat.le_of_lt hspells.columns) (Nat.le_of_lt_succ hinside) ['\n']
      simpa [hsource] using hspells.text_eq_empty_iff
  | _ => cases ha

end Reader

/-- The mark of a line is named unless it is a closer, and its name is empty only if it is bare. -/
theorem named_of_lineMark? {ks : Keywords} {l : Nat × String} {a : Mark} (h : lineMark? ks l = some a) :
    a.Named ∧ (a.nameText? = some "" ↔ a.Bare l.2.toList) := by
  unfold lineMark? readLine at h
  split at h
  · cases h
  · exact ((Reader.knows_start ks 0).read l.2 l.1).finish h

end Mark

/-! ## Documents -/

namespace TextLines

/-- A mark has a bare name in a document. -/
def Bare (ks : Keywords) (text : TextLines) (a : Mark) : Prop :=
  ∃ l ∈ text.visits, Mark.lineMark? ks l = some a ∧ a.Bare l.2.toList

variable {ks : Keywords} {text : TextLines} {a : Mark}

theorem named_of_mem_marks (ha : a ∈ (text.marks ks).all) :
    a.Named ∧ (a.nameText? = some "" ↔ text.Bare ks a) := by
  obtain ⟨l, hl, hmark⟩ := mem_marks.1 ha
  obtain ⟨hnamed, hempty⟩ := Mark.named_of_lineMark? hmark
  refine ⟨hnamed, fun h => ⟨l, hl, hmark, hempty.1 h⟩, ?_⟩
  rintro ⟨l', -, hmark', hbare⟩
  exact (Mark.named_of_lineMark? hmark').2.2 hbare

/-- A mark says no name if it is a closer without one, or if its name is bare. -/
theorem says_none_iff (ha : a ∈ (text.marks ks).all) :
    a.nameText?.getD "" = "" ↔ a.marker = .closer ∧ a.name = none ∨ text.Bare ks a := by
  obtain ⟨hnamed, hempty⟩ := named_of_mem_marks ha
  rw [← hempty]
  unfold Mark.nameText?
  cases hn : a.name with
  | none =>
    have hcloser : a.marker = .closer := hnamed.resolve_right (by simp [hn])
    simp [hcloser]
  | some n => simp

theorem says_none_iff_of_ne_closer (ha : a ∈ (text.marks ks).all) (hm : a.marker ≠ .closer) :
    a.nameText?.getD "" = "" ↔ text.Bare ks a := by
  rw [says_none_iff ha, or_iff_right fun h => hm h.1]

/-- What can be renamed is the name of a mark. -/
theorem exists_of_renameable? {s : Marks} {p : Position} {range : Span} (h : s.renameable? p = some range) :
    ∃ a ∈ s.all, ∃ n ∈ a.name, n.range = range := by
  obtain ⟨ts, htogether, hperm, hfirst⟩ := Marks.exists_together h ""
  obtain ⟨e, he, rfl⟩ := Option.map_eq_some_iff.1 hfirst
  obtain ⟨a, ha, hedit⟩ := List.mem_filterMap.1 (hperm.mem_iff.1 (List.mem_of_mem_head? he))
  obtain ⟨n, hn, rfl⟩ := Option.map_eq_some_iff.1 hedit
  exact ⟨a, htogether.sublist.subset ha, n, hn, rfl⟩

end TextLines

namespace Mark

/-- Whatever a reader was asked before, only a closer that it finds has no name, and a name that it finds
is empty exactly if it is bare. So in a document a region, a tag or a name that can be changed is empty
exactly if it is bare, and a closer that says no name has none or has a bare one. -/
theorem nameText?_eq_empty_iff (ks : Keywords) :
    (∀ (calls : List Reader.Call) (a : Mark), (calls.foldl Reader.call (.new ks)).finish.1 = some a →
      (a.name = none → a.marker = .closer) ∧ (a.nameText? = some "" ↔ a.Bare (Reader.typed calls))) ∧
      ∀ text : TextLines,
        (∀ r ∈ (text.marks ks).regions, r.name = "" ↔ text.Bare ks r.opener) ∧
        (∀ a ∈ (text.marks ks).tags, a.nameText?.getD "" = "" ↔ text.Bare ks a) ∧
        (∀ p range, (text.marks ks).renameable? p = some range →
          ∃ a ∈ (text.marks ks).all, ∃ n ∈ a.name, n.range = range ∧ (n.text = "" ↔ text.Bare ks a)) ∧
        ∀ a ∈ (text.marks ks).all, a.marker = .closer →
          (a.nameText?.getD "" = "" ↔ a.name = none ∨ text.Bare ks a) := by
  refine ⟨fun calls a ha => ?_, fun text => ⟨fun r hr => ?_, fun a ha => ?_, fun p range h => ?_,
    fun a ha hm => ?_⟩⟩
  · obtain ⟨hnamed, hempty⟩ := (Reader.knows_foldl_call ks calls).finish ha
    exact ⟨fun hnone => hnamed.resolve_right (by simp [hnone]), hempty⟩
  · have hmem : r.opener ∈ (text.marks ks).all :=
      List.mem_append_left _ (List.mem_flatMap.2 ⟨r, hr, by simp⟩)
    refine TextLines.says_none_iff_of_ne_closer hmem ?_
    rw [(Marks.mem_of_mem_regions hr).2]
    simp
  · refine TextLines.says_none_iff_of_ne_closer (List.mem_append_right _ (List.mem_append_left _ ha)) ?_
    rw [(Marks.mem_of_mem_tags ha).2]
    simp
  · obtain ⟨a, ha, n, hn, hrange⟩ := TextLines.exists_of_renameable? h
    have hempty := (TextLines.named_of_mem_marks ha).2
    refine ⟨a, ha, n, hn, hrange, ?_⟩
    rw [← hempty, nameText?, Option.mem_def.1 hn]
    simp
  · rw [TextLines.says_none_iff ha, and_iff_right hm]

/-- The keyword, the space behind it and the backslash come in three parts with different numbers, after
a line that was given up. What is found is a closer with an empty name. -/
theorem nameText?_eq_empty_iff_backslash :
    let calls : List Reader.Call :=
      [.read "#tag a" 0, .reset, .read "// #end" 1, .read "region " 2, .read "\\" 3]
    ∃ a, (calls.foldl Reader.call (.new .standard)).finish.1 = some a ∧ a.marker = .closer ∧
      a.Bare (Reader.typed calls) ∧ a.nameText? = some "" := by
  intro calls
  let n : Token := token 3 "" 14 15
  let a : Mark := .ofParts .closer (token 2 "#endregion" 3 13) (some n) none
  have ha : (calls.foldl Reader.call (.new .standard)).finish.1 = some a := by decide
  have hbare : a.Bare (Reader.typed calls) := ⟨n, rfl, by decide⟩
  exact ⟨a, ha, rfl, hbare, (((nameText?_eq_empty_iff .standard).1 calls a ha).2).2 hbare⟩

/-- A tag with an empty name, and a closer that says no name but closes nothing. -/
theorem nameText?_tag_backslash :
    ((Reader.new .standard).read "#tag \\" 0).finish.1.map (fun a => (a.marker, a.nameText?)) =
        some (.tag, some "") ∧
      ((TextLines.ofString "#region a\n#endregion \\").marks .standard).regions = [] := by
  decide

end Mark

end SymbolOutline
