import Mathlib.Data.List.Induction
import SymbolOutline.Mark.Scan
import SymbolOutline.Proofs.Names
import SymbolOutline.Proofs.Escapes

/-
A reader has no memory of earlier lines (`read_afresh`). Whatever it was asked before, the mark that it
finds is the one that a new reader finds in the line it is in, and this line is known from the calls
since the line before was ended or given up (`pending`).

A scan passes over lines that are blank. A new reader finds nothing there either: it stays in front of a
keyword as long as no keyword has come, and keywords that are fit for use have no blanks in them.
-/

namespace SymbolOutline.Mark

namespace Reader

/-! ## Calls -/

/-- What is asked of a reader. -/
inductive Call where
  | read (part : String) (line : Nat)
  | finish
  | reset
  | setKeywords (keywords : Keywords)
deriving DecidableEq, Repr

/-- The reader after a call. -/
def call (r : Reader) : Call → Reader
  | .read part line => r.read part line
  | .finish => r.finish.2
  | .reset => r.reset
  | .setKeywords keywords => r.setKeywords keywords

/-- The keywords in use after a call. -/
def Call.keywords (ks : Keywords) : Call → Keywords
  | .setKeywords keywords => keywords
  | _ => ks

/-- The parts of the line that a reader is in after a call. -/
def Call.pending (parts : List (String × Nat)) : Call → List (String × Nat)
  | .read part line => parts ++ [(part, line)]
  | _ => []

/-- The keywords in use after calls. -/
def keywordsAfter (ks : Keywords) (calls : List Call) : Keywords := calls.foldl Call.keywords ks

/-- The parts that were read since a line was last ended or given up, with the numbers given to it. -/
def pending (calls : List Call) : List (String × Nat) := calls.foldl Call.pending []

/-- Reads parts of a line, one after the other. -/
def readParts (r : Reader) (parts : List (String × Nat)) : Reader :=
  parts.foldl (fun r p => r.read p.1 p.2) r

/-- The mark that a new reader finds in a line. -/
def fresh? (ks : Keywords) (line : Nat) (text : String) : Option Mark :=
  ((new ks).read text line).finish.1

variable {ks : Keywords} {r : Reader}

theorem readParts_concat (r : Reader) (parts : List (String × Nat)) (p : String × Nat) :
    r.readParts (parts ++ [p]) = (r.readParts parts).read p.1 p.2 := by
  rw [readParts, List.foldl_append]
  rfl

/-- Two parts of a line are read like one. -/
theorem read_read (r : Reader) (part part' : String) (line : Nat) :
    (r.read part line).read part' line = r.read (part ++ part') line := by
  unfold read
  rw [foldl_readChar, foldl_readChar, foldl_readChar, String.toList_append, Stage.readAll_append,
    List.length_append, Nat.add_assoc]

@[simp] theorem keywords_readParts (r : Reader) (parts : List (String × Nat)) :
    (r.readParts parts).keywords = r.keywords := by
  induction parts using List.reverseRecOn with
  | nil => rfl
  | append_singleton parts p ih =>
    rw [readParts_concat, read, foldl_readChar]
    exact ih

/-- Parts with one number are read like the line that they make. -/
theorem readParts_of_forall {line : Nat} {parts : List (String × Nat)} (hne : parts ≠ [])
    (h : ∀ p ∈ parts, p.2 = line) : r.readParts parts = r.read (String.join (parts.map Prod.fst)) line := by
  induction parts using List.reverseRecOn with
  | nil => exact absurd rfl hne
  | append_singleton parts p ih =>
    have hp : p.2 = line := h p (by simp)
    rw [readParts_concat, List.map_append, String.join_append, hp]
    by_cases hparts : parts = []
    · subst hparts
      simp [readParts]
    · rw [ih hparts fun q hq => h q (List.mem_append_left _ hq), read_read]
      simp

theorem keywordsAfter_concat (ks : Keywords) (calls : List Call) (c : Call) :
    keywordsAfter ks (calls ++ [c]) = c.keywords (keywordsAfter ks calls) := List.foldl_concat ..

theorem pending_concat (calls : List Call) (c : Call) :
    pending (calls ++ [c]) = c.pending (pending calls) := List.foldl_concat ..

/-- A reader that has read parts of a line since its start, after one more call. -/
theorem call_readParts (ks : Keywords) (line : Nat) (parts : List (String × Nat)) (c : Call) :
    ∃ n, (readParts ⟨ks, .start, 0, line⟩ parts).call c =
      readParts ⟨c.keywords ks, .start, 0, n⟩ (c.pending parts) := by
  have hkeywords := keywords_readParts ⟨ks, .start, 0, line⟩ parts
  cases c with
  | read part n => exact ⟨line, (readParts_concat _ parts (part, n)).symm⟩
  | finish => exact ⟨_, congrArg (Reader.mk · .start 0 _) hkeywords⟩
  | reset => exact ⟨_, congrArg (Reader.mk · .start 0 _) hkeywords⟩
  | setKeywords keywords => exact ⟨_, rfl⟩

/-- After calls a reader has read, since the start of a line, what is pending. -/
theorem foldl_call (ks : Keywords) (calls : List Call) :
    ∃ line, calls.foldl call (new ks) =
      readParts ⟨keywordsAfter ks calls, .start, 0, line⟩ (pending calls) := by
  induction calls using List.reverseRecOn with
  | nil => exact ⟨0, rfl⟩
  | append_singleton calls c ih =>
    obtain ⟨line, ih⟩ := ih
    obtain ⟨n, hstep⟩ := call_readParts (keywordsAfter ks calls) line (pending calls) c
    refine ⟨n, ?_⟩
    rw [List.foldl_concat, ih, hstep, keywordsAfter_concat, pending_concat]

/-- At the start of a line there is no mark, whatever its number. -/
theorem finish_start (ks : Keywords) (line : Nat) : (Reader.mk ks .start 0 line).finish.1 = none := by
  have hnone : keyword? ks [] = none := by
    cases h : keyword? ks [] with
    | none => rfl
    | some e =>
      obtain ⟨hmem, hchars⟩ := mem_of_keyword? h
      have htext : e.2.1.toList = [] := by
        rw [List.eq_nil_iff_forall_not_mem]
        intro c hc
        obtain ⟨p, hp, -⟩ := hchars c hc
        cases hp
      exact absurd (String.toList_eq_nil_iff.1 htext) (ne_empty_of_mem_entries hmem)
  simp [finish, readChar, Stage.start, Stage.step, Stage.spaceInLeading, hnone, Stage.mark?]

/-- Whatever a reader was asked before, it finds the mark that a new one finds. -/
theorem finish_foldl_call (ks : Keywords) {calls : List Call} {line : Nat}
    (h : ∀ p ∈ pending calls, p.2 = line) :
    (calls.foldl call (new ks)).finish.1 =
      fresh? (keywordsAfter ks calls) line (String.join ((pending calls).map Prod.fst)) := by
  obtain ⟨n, hcalls⟩ := foldl_call ks calls
  rw [hcalls, fresh?]
  by_cases hne : pending calls = []
  · rw [hne]
    exact (finish_start _ n).trans (finish_start _ line).symm
  · rw [readParts_of_forall hne h]
    rfl

/-! ## Blank lines -/

/-- As long as no keyword can be made of the characters of a line, the reader stays in front of it. -/
theorem readAll_of_keywordless {cs : List Char} {word : List Placed} (column line : Nat)
    (escaping : Bool) (hks : ∀ e ∈ ks.entries, ∃ c ∈ e.2.toList, c ∉ cs ∧ ∀ p ∈ word, p.char ≠ c) :
    ∃ word' escaping', Stage.readAll ks line column cs (.leading word escaping) =
      .leading word' escaping' := by
  induction cs generalizing column word escaping with
  | nil => exact ⟨word, escaping, rfl⟩
  | cons c cs ih =>
    rw [Stage.readAll]
    rcases step_leading ks line column c word escaping with
      ⟨word', escaping', hstep, hword⟩ | ⟨m, text, first, hk, -⟩
    · rw [hstep]
      refine ih _ _ fun e he => ?_
      obtain ⟨d, hd, hcs, hout⟩ := hks e he
      rw [List.mem_cons, not_or] at hcs
      refine ⟨d, hd, hcs.2, fun p hp hpd => ?_⟩
      rcases hword p hp with hp | hp
      · exact hout p hp hpd
      · exact hcs.1 (hpd.symm.trans hp)
    · -- the keyword would be made of characters of the word
      obtain ⟨he, hchars⟩ := mem_of_keyword? hk
      obtain ⟨d, hd, -, hout⟩ := hks _ he
      obtain ⟨p, hp, hpd⟩ := hchars d hd
      exact absurd hpd (hout p hp)

/-- A new reader finds nothing in a blank line. -/
theorem fresh?_of_isBlankText {s : Settings} (hs : s.fault? = none) (line : Nat) {text : String}
    (h : Text.isBlankText text = true) : fresh? s.keywords line text = none := by
  have hkeywords : ∀ e ∈ s.keywords.entries, ∃ c ∈ e.2.toList,
      c ∉ text.toList ++ ['\n'] ∧ ∀ p ∈ ([] : List Placed), p.char ≠ c := by
    rintro ⟨m, k⟩ he
    obtain ⟨rfl, hk⟩ := Keywords.mem_entries.1 he
    obtain ⟨c, hc⟩ := List.exists_mem_of_ne_nil _ (mt String.toList_eq_nil_iff.1 hk)
    have hplain := (Settings.keyword_of_fault? hs m).2 c hc
    refine ⟨c, hc, fun hmem => ?_, fun p hp => by cases hp⟩
    rcases List.mem_append.1 hmem with hmem | hmem
    · rw [List.all_eq_true.1 h c hmem] at hplain
      cases hplain
    · obtain rfl := List.mem_singleton.1 hmem
      revert hplain
      decide
  obtain ⟨word, escaping, hread⟩ := readAll_of_keywordless 0 line false hkeywords
  rw [fresh?, finish_read, Stage.start, hread]
  rfl

end Reader

/-- A scan finds in each line what a new reader finds there, though it passes over blank lines. -/
theorem readLines_eq_fresh {s : Settings} (hs : s.fault? = none) (lines : List (Nat × String)) :
    readLines (.new s.keywords) lines = lines.filterMap fun l => Reader.fresh? s.keywords l.1 l.2 := by
  rw [show readLines (.new s.keywords) lines = _ from readLines_eq s.keywords 0 lines]
  refine List.filterMap_congr fun l _ => ?_
  unfold lineMark? readLine
  split
  · next hblank => exact (Reader.fresh?_of_isBlankText hs l.1 hblank).symm
  · rfl

/-- Each mark that a reader finds is the one that a new reader finds in the line, and so a document has
the marks that new readers find in its lines, blank or not. -/
theorem read_afresh :
    (∀ (ks : Keywords) (calls : List Reader.Call) (line : Nat),
      (∀ p ∈ Reader.pending calls, p.2 = line) →
        (calls.foldl Reader.call (.new ks)).finish.1 =
          ((Reader.new (Reader.keywordsAfter ks calls)).read
            (String.join ((Reader.pending calls).map Prod.fst)) line).finish.1) ∧
      ∀ s : Settings, s.fault? = none → ∀ text : String,
        (TextLines.ofString text).marks s.keywords =
          .ofList ((TextLines.ofString text).visits.filterMap fun l =>
            ((Reader.new s.keywords).read l.2 l.1).finish.1) :=
  ⟨fun ks _ _ h => Reader.finish_foldl_call ks h,
    fun _ hs _ => congrArg Marks.ofList (readLines_eq_fresh hs _)⟩

/-- Lines without a name, given up within an escape and with another keyword; then one in parts that
break its keyword and its escape. The blank line of the text is not blank to the reader. -/
theorem read_afresh_reused :
    let calls : List Reader.Call := [.read "#region" 0, .finish, .read "#tag a\\" 1, .reset,
      .read "#tag b" 2, .setKeywords ⟨"@open", "@close", "@tag"⟩, .read "@open c" 3, .finish,
      .setKeywords .standard, .read "// #re" 4, .read "gion na\\" 4, .read " me x" 4]
    let text := "#tag a\n\u00a0\n#tag b"
    (∀ p ∈ Reader.pending calls, p.2 = 4) ∧
      Reader.pending calls = [("// #re", 4), ("gion na\\", 4), (" me x", 4)] ∧
      ((calls.foldl Reader.call (.new .standard)).finish.1.map reading =
        some ⟨.opener, "#region", some "na me", some "x"⟩) ∧
      (calls.foldl Reader.call (.new .standard)).finish.1 =
        ((Reader.new .standard).read "// #region na\\ me x" 4).finish.1 ∧
      Settings.standard.fault? = none ∧
      (TextLines.ofString text).marks Settings.standard.keywords =
        .ofList ((TextLines.ofString text).visits.filterMap fun l =>
          ((Reader.new Settings.standard.keywords).read l.2 l.1).finish.1) := by
  intro calls text
  have hparts : ∀ p ∈ Reader.pending calls, p.2 = 4 := by decide
  have hs : Settings.standard.fault? = none := by decide
  have hcalls := read_afresh.1 .standard calls 4 hparts
  refine ⟨hparts, rfl, ?_, hcalls, hs, read_afresh.2 _ hs text⟩
  rw [hcalls]
  decide

end SymbolOutline.Mark
