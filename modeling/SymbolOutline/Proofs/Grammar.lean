import Mathlib.Data.List.Nodup
import Mathlib.Data.List.TakeWhile
import SymbolOutline.Mark.Reader

/-
The grammar of marks, and that the reader follows it (`reading_finish_iff`).

A line is first taken apart into glyphs: characters that stand for themselves, and characters behind a
backslash. Only a character that stands for itself can be a space. The glyphs up to a space form a word,
the first word that ends with a keyword ends the keyword part, and the name and the description
are found in what follows. None of this mentions stages or columns.
-/

namespace SymbolOutline.Mark

/-! ## Glyphs -/

/-- A character of a line as it is meant. -/
inductive Glyph where
  /-- A character that stands for itself. -/
  | plain (c : Char)
  /-- A character behind a backslash. -/
  | literal (c : Char)
  /-- A backslash at the end of the line, which stands for nothing. -/
  | stray
deriving DecidableEq, Repr

namespace Glyph

/-- What a glyph stands for. -/
def chars : Glyph → List Char
  | plain c => [c]
  | literal c => [c]
  | stray => []

/-- What a glyph is written as. -/
def source : Glyph → List Char
  | plain c => [c]
  | literal c => ['\\', c]
  | stray => ['\\']

/-- A glyph separates the parts of a mark. -/
def isSpace : Glyph → Bool
  | plain c => c = ' ' || c = '\t' || c = '\x0c' || c = '\x0b'
  | _ => false

end Glyph

/-- The glyphs of a line. -/
def glyphs : List Char → List Glyph
  | [] => []
  | [c] => if c = '\\' then [.stray] else [.plain c]
  | c :: d :: cs => if c = '\\' then .literal d :: glyphs cs else .plain c :: glyphs (d :: cs)

/-- What glyphs stand for. -/
def textOf (gs : List Glyph) : List Char := gs.flatMap Glyph.chars

@[simp] theorem textOf_nil : textOf [] = [] := rfl

@[simp] theorem textOf_plain (c : Char) (gs : List Glyph) :
    textOf (.plain c :: gs) = c :: textOf gs := rfl

@[simp] theorem textOf_literal (c : Char) (gs : List Glyph) :
    textOf (.literal c :: gs) = c :: textOf gs := rfl

@[simp] theorem textOf_stray (gs : List Glyph) : textOf (.stray :: gs) = textOf gs := rfl

theorem textOf_append (gs hs : List Glyph) : textOf (gs ++ hs) = textOf gs ++ textOf hs :=
  List.flatMap_append

/-! ## The grammar -/

/-- Nothing more, or a space. -/
def AtSpace (gs : List Glyph) : Prop := ∀ g ∈ gs.head?, g.isSpace = true

/-- Nothing more, or something other than a space. -/
def PastSpace (gs : List Glyph) : Prop := ∀ g ∈ gs.head?, g.isSpace = false

/-- A run of spaces. -/
def Blank (gs : List Glyph) : Prop := ∀ g ∈ gs, g.isSpace = true

/-- A run without spaces. -/
def Solid (gs : List Glyph) : Prop := ∀ g ∈ gs, g.isSpace = false

/-- A word ends with a keyword. -/
def EndsWith (ks : Keywords) (word : List Glyph) (marker : Marker) (keyword : String) : Prop :=
  (marker, keyword) ∈ ks.entries ∧ keyword.toList <:+ textOf word

/-- A word ends with a keyword and with no longer one. -/
def Decides (ks : Keywords) (word : List Glyph) (marker : Marker) (keyword : String) : Prop :=
  EndsWith ks word marker keyword ∧
    ∀ m k, EndsWith ks word m k → k.length ≤ keyword.length

/-- The keyword part of a line: it reaches up to `rest`. -/
inductive Opens (ks : Keywords) : List Glyph → Marker → String → List Glyph → Prop
  /-- The first word ends with a keyword. -/
  | here {word rest marker keyword} : Solid word → AtSpace rest → Decides ks word marker keyword →
      Opens ks (word ++ rest) marker keyword rest
  /-- The first word ends with no keyword, and a space follows. -/
  | behind {word space more marker keyword rest} : Solid word → space.isSpace = true →
      (∀ m k, ¬ EndsWith ks word m k) → Opens ks more marker keyword rest →
      Opens ks (word ++ space :: more) marker keyword rest

/-- What follows the name: spaces and a description, which may be empty. -/
inductive Describes : List Glyph → Option String → Prop
  | empty {gap text} : Blank gap → PastSpace text → textOf text = [] → Describes (gap ++ text) none
  | given {gap text} : Blank gap → PastSpace text → textOf text ≠ [] →
      Describes (gap ++ text) (some (String.ofList (textOf text)))

/-- What follows the keyword: spaces, a name and a description. Only a closer does without. -/
inductive Names : Marker → List Glyph → Option String → Option String → Prop
  | unnamed {gap} : Blank gap → Names .closer gap none none
  | named {marker gap name rest description} : Blank gap → name ≠ [] → Solid name → AtSpace rest →
      Describes rest description →
      Names marker (gap ++ (name ++ rest)) (some (String.ofList (textOf name))) description

/-- The texts of a mark. -/
structure Reading where
  marker : Marker
  keyword : String
  name : Option String
  description : Option String
deriving DecidableEq, Repr

/-- The texts of a mark. -/
def reading (a : Mark) : Reading :=
  ⟨a.marker, a.keyword.text, a.nameText?, a.description.map Token.text⟩

/-- A line has a mark with given texts. -/
def Annotates (ks : Keywords) (gs : List Glyph) (a : Reading) : Prop :=
  ∃ rest, Opens ks gs a.marker a.keyword rest ∧ Names a.marker rest a.name a.description

/-! ## Glyphs of a line -/

/-- Glyphs as they come from a line: plain ones are no backslashes, and a stray one is the last. -/
def Written : List Glyph → Prop
  | [] => True
  | .plain c :: gs => c ≠ '\\' ∧ endsLine c = false ∧ Written gs
  | .literal c :: gs => endsLine c = false ∧ Written gs
  | .stray :: gs => gs = []

theorem source_glyphs (cs : List Char) : (glyphs cs).flatMap Glyph.source = cs := by
  fun_induction glyphs cs with
  | case1 => rfl
  | case2 => rfl
  | case3 c h => rfl
  | case4 d cs ih => rw [List.flatMap_cons, ih]; rfl
  | case5 c d cs h ih => rw [List.flatMap_cons, ih]; rfl

theorem written_glyphs {cs : List Char} (h : ∀ c ∈ cs, endsLine c = false) : Written (glyphs cs) := by
  fun_induction glyphs cs with
  | case1 => trivial
  | case2 => rfl
  | case3 c hc => exact ⟨hc, h c (List.mem_singleton_self c), trivial⟩
  | case4 d cs ih => exact ⟨h d (by simp), ih fun c hc => h c (by simp [hc])⟩
  | case5 c d cs hc ih =>
    exact ⟨hc, h c (List.mem_cons_self ..), ih fun e he => h e (List.mem_cons_of_mem _ he)⟩

/-- Away from the end of a line the characters that separate are the plain spaces. -/
theorem isSpace_plain {c : Char} (h : endsLine c = false) :
    (Glyph.plain c).isSpace = isSpace c := by
  simp only [endsLine, Bool.or_eq_false_iff, decide_eq_false_iff_not] at h
  simp [Glyph.isSpace, isSpace, h]

/-! ## Reading glyphs -/

namespace Stage

/-- The stage after some characters, the first of which stands in a column. -/
def readAll (ks : Keywords) (line : Nat) : Nat → List Char → Stage → Stage
  | _, [], s => s
  | column, c :: cs, s => readAll ks line (column + 1) cs (s.step ks line column c)

/-- The texts of the mark of a line that has come to a stage, with the glyphs that are left. -/
def outcome (ks : Keywords) (line column : Nat) (s : Stage) (gs : List Glyph) : Option Reading :=
  (readAll ks line column (gs.flatMap Glyph.source ++ ['\n']) s).mark?.map reading

variable {ks : Keywords} {line column : Nat} {s : Stage} {gs : List Glyph}

@[simp] theorem outcome_nil :
    outcome ks line column s [] = (s.step ks line column '\n').mark?.map reading := rfl

@[simp] theorem outcome_plain (c : Char) : outcome ks line column s (.plain c :: gs) =
    outcome ks line (column + 1) (s.step ks line column c) gs := rfl

@[simp] theorem outcome_literal (c : Char) : outcome ks line column s (.literal c :: gs) =
    outcome ks line (column + 2) ((s.step ks line column '\\').step ks line (column + 1) c) gs := rfl

@[simp] theorem outcome_stray : outcome ks line column s [.stray] =
    ((s.step ks line column '\\').step ks line (column + 1) '\n').mark?.map reading := rfl

end Stage

theorem foldl_readChar (r : Reader) (cs : List Char) : cs.foldl Reader.readChar r =
    { r with stage := Stage.readAll r.keywords r.line r.column cs r.stage,
             column := r.column + cs.length } := by
  induction cs generalizing r with
  | nil => rfl
  | cons c cs ih =>
    rw [List.foldl_cons, ih, List.length_cons, Nat.add_comm cs.length, ← Nat.add_assoc]
    rfl

theorem Stage.readAll_append (ks : Keywords) (line column : Nat) (cs ds : List Char) (s : Stage) :
    readAll ks line column (cs ++ ds) s =
      readAll ks line (column + cs.length) ds (readAll ks line column cs s) := by
  induction cs generalizing column s with
  | nil => rfl
  | cons c cs ih =>
    rw [List.cons_append, readAll, ih, List.length_cons, Nat.add_comm cs.length, ← Nat.add_assoc]
    rfl

/-- The end of a line is read like one more character. -/
theorem finish_read (ks : Keywords) (text : String) (line : Nat) :
    ((Reader.new ks).read text line).finish.1 =
      (Stage.readAll ks line 0 (text.toList ++ ['\n']) .start).mark? := by
  rw [Stage.readAll_append]
  unfold Reader.finish Reader.read
  rw [foldl_readChar]
  rfl

theorem reading_finish (ks : Keywords) (text : String) (line : Nat) :
    ((Reader.new ks).read text line).finish.1.map reading =
      Stage.outcome ks line 0 .start (glyphs text.toList) := by
  rw [Stage.outcome, source_glyphs, finish_read]

/-! ## The parts of a line, from the last to the first -/

@[simp] theorem endsLine_newline : endsLine '\n' = true := rfl

@[simp] theorem endsLine_backslash : endsLine '\\' = false := rfl

@[simp] theorem isSpace_newline : isSpace '\n' = true := rfl

@[simp] theorem isSpace_backslash : isSpace '\\' = false := rfl

/-- The text of a description, absent if it is empty. -/
def described (text : List Char) : Option String :=
  if text = [] then none else some (String.ofList text)

namespace Stage

variable {ks : Keywords} {line column : Nat} {gs : List Glyph} {m : Marker} {k n : Token}

theorem reading_endDescription (first : Nat) (word : List Char) :
    (endDescription m k n line first column word).mark?.map reading =
      some ⟨m, k.text, some n.text, described word.reverse⟩ := by
  unfold endDescription described
  by_cases h : word = []
  · simp [h, mark?, reading, ofParts, nameText?]
  · simp [h, mark?, reading, ofParts, nameText?, token]

theorem outcome_inDescription (h : Written gs) (first : Nat) (word : List Char) :
    outcome ks line column (inDescription m k n first word false) gs =
      some ⟨m, k.text, some n.text, described (word.reverse ++ textOf gs)⟩ := by
  induction gs generalizing column word with
  | nil => simp [step, reading_endDescription]
  | cons g gs ih =>
    cases g with
    | plain c =>
      obtain ⟨hc, he, hgs⟩ := h
      simp [step, hc, he, ih hgs]
    | literal c =>
      obtain ⟨he, hgs⟩ := h
      simp [step, he, ih hgs]
    | stray =>
      obtain rfl := h
      simp [step, reading_endDescription]

/-- Behind the name, spaces are skipped. -/
theorem outcome_afterName (h : Written gs) :
    outcome ks line column (afterName m k n) gs =
      some ⟨m, k.text, some n.text, described (textOf (gs.dropWhile Glyph.isSpace))⟩ := by
  induction gs generalizing column with
  | nil => rfl
  | cons g gs ih =>
    cases g with
    | plain c =>
      obtain ⟨hc, he, hgs⟩ := h
      by_cases hs : isSpace c = true
      · simp [step, spaceAfterName, isSpace_plain, hs, he, ih hgs]
      · simp [step, isSpace_plain, hc, hs, he, outcome_inDescription hgs]
    | literal c =>
      obtain ⟨he, hgs⟩ := h
      simp [step, Glyph.isSpace, he, outcome_inDescription hgs]
    | stray =>
      obtain rfl := h
      simp [step, Glyph.isSpace, reading_endDescription]

/-- A name reaches up to a space. -/
theorem outcome_inName (h : Written gs) (first : Nat) (word : List Char) :
    outcome ks line column (inName m k first word false) gs =
      some ⟨m, k.text,
        some (String.ofList (word.reverse ++ textOf (gs.takeWhile fun g => !g.isSpace))),
        described (textOf ((gs.dropWhile fun g => !g.isSpace).dropWhile Glyph.isSpace))⟩ := by
  induction gs generalizing column word with
  | nil => simp [step, spaceAfterName, mark?, reading, ofParts, nameText?, token, described]
  | cons g gs ih =>
    cases g with
    | plain c =>
      obtain ⟨hc, he, hgs⟩ := h
      by_cases hs : isSpace c = true
      · simp [step, spaceAfterName, isSpace_plain, hc, hs, he, outcome_afterName hgs, token]
      · simp [step, isSpace_plain, hc, hs, he, ih hgs]
    | literal c =>
      obtain ⟨he, hgs⟩ := h
      simp [step, Glyph.isSpace, he, ih hgs]
    | stray =>
      obtain rfl := h
      simp [step, Glyph.isSpace, spaceAfterName, mark?, reading, ofParts, nameText?, token, described]

end Stage

/-! ## Runs of spaces and words -/

variable {gs : List Glyph}

theorem blank_takeWhile (gs : List Glyph) : Blank (gs.takeWhile Glyph.isSpace) :=
  fun _ hg => List.mem_takeWhile_imp hg

theorem pastSpace_dropWhile (gs : List Glyph) : PastSpace (gs.dropWhile Glyph.isSpace) := by
  intro g hg
  have := List.head?_dropWhile_not Glyph.isSpace gs
  rw [hg] at this
  simpa using this

theorem solid_takeWhile (gs : List Glyph) : Solid (gs.takeWhile fun g => !g.isSpace) :=
  fun _ hg => by simpa using List.mem_takeWhile_imp hg

theorem atSpace_dropWhile (gs : List Glyph) : AtSpace (gs.dropWhile fun g => !g.isSpace) := by
  intro g hg
  have := List.head?_dropWhile_not (fun g : Glyph => !g.isSpace) gs
  rw [hg] at this
  simpa using this

theorem dropWhile_blank_append {gap rest : List Glyph} (hg : Blank gap) (hr : PastSpace rest) :
    (gap ++ rest).dropWhile Glyph.isSpace = rest := by
  rw [List.dropWhile_append_of_pos hg]
  cases rest with
  | nil => rfl
  | cons g rest => exact List.dropWhile_cons_of_neg (by simp [hr g rfl])

theorem takeWhile_solid_append {word rest : List Glyph} (hw : Solid word) (hr : AtSpace rest) :
    (word ++ rest).takeWhile (fun g => !g.isSpace) = word := by
  rw [List.takeWhile_append_of_pos fun g hg => by simp [hw g hg]]
  cases rest with
  | nil => simp
  | cons g rest => simp [hr g rfl]

theorem dropWhile_solid_append {word rest : List Glyph} (hw : Solid word) (hr : AtSpace rest) :
    (word ++ rest).dropWhile (fun g => !g.isSpace) = rest := by
  rw [List.dropWhile_append_of_pos fun g hg => by simp [hw g hg]]
  cases rest with
  | nil => rfl
  | cons g rest => simp [hr g rfl]

/-- There is one way to part a word from what follows it. -/
theorem solid_append_inj {word word' rest rest' : List Glyph} (hw : Solid word) (hr : AtSpace rest)
    (hw' : Solid word') (hr' : AtSpace rest') (h : word ++ rest = word' ++ rest') :
    word = word' ∧ rest = rest' := by
  have hword : word = word' := by
    rw [← takeWhile_solid_append hw hr, h, takeWhile_solid_append hw' hr']
  subst hword
  exact ⟨rfl, List.append_cancel_left h⟩

theorem describes_iff {d : Option String} :
    Describes gs d ↔ d = described (textOf (gs.dropWhile Glyph.isSpace)) := by
  constructor
  · rintro (⟨hg, ht, he⟩ | ⟨hg, ht, he⟩)
    · rw [dropWhile_blank_append hg ht, described, if_pos he]
    · rw [dropWhile_blank_append hg ht, described, if_neg he]
  · rintro rfl
    have hg := blank_takeWhile gs
    have ht := pastSpace_dropWhile gs
    have hgs : gs.takeWhile Glyph.isSpace ++ gs.dropWhile Glyph.isSpace = gs :=
      List.takeWhile_append_dropWhile
    by_cases he : textOf (gs.dropWhile Glyph.isSpace) = []
    · have := Describes.empty hg ht he
      rw [hgs] at this
      rwa [described, if_pos he]
    · have := Describes.given hg ht he
      rw [hgs] at this
      rwa [described, if_neg he]

theorem names_of_dropWhile_eq_nil (h : gs.dropWhile Glyph.isSpace = []) {m : Marker}
    {n d : Option String} : Names m gs n d ↔ m = .closer ∧ n = none ∧ d = none := by
  have hall : ∀ g ∈ gs, g.isSpace = true := List.dropWhile_eq_nil_iff.1 h
  constructor
  · rintro (hg | ⟨hg, hne, hw, hr, hd⟩)
    · exact ⟨rfl, rfl, rfl⟩
    · obtain ⟨g, hmem⟩ := List.exists_mem_of_ne_nil _ hne
      exact absurd (hall g (by simp [hmem])) (by simp [hw g hmem])
  · rintro ⟨rfl, rfl, rfl⟩
    exact .unnamed hall

theorem names_of_dropWhile_ne_nil (h : gs.dropWhile Glyph.isSpace ≠ []) {m : Marker}
    {n d : Option String} : Names m gs n d ↔
      n = some (String.ofList (textOf ((gs.dropWhile Glyph.isSpace).takeWhile fun g => !g.isSpace))) ∧
        d = described (textOf (((gs.dropWhile Glyph.isSpace).dropWhile fun g => !g.isSpace).dropWhile
          Glyph.isSpace)) := by
  constructor
  · rintro (hg | ⟨hg, hne, hw, hr, hd⟩)
    · exact absurd (List.dropWhile_eq_nil_iff.2 hg) h
    · rename_i gap name rest
      have hp : PastSpace (name ++ rest) := by
        obtain ⟨g, name, rfl⟩ := List.exists_cons_of_ne_nil hne
        intro f hf
        obtain rfl : g = f := Option.some.inj hf
        exact hw g (List.mem_cons_self ..)
      rw [dropWhile_blank_append hg hp, takeWhile_solid_append hw hr, dropWhile_solid_append hw hr]
      exact ⟨rfl, describes_iff.1 hd⟩
  · rintro ⟨rfl, rfl⟩
    obtain ⟨hs, hhs⟩ : ∃ hs, hs = gs.dropWhile Glyph.isSpace := ⟨_, rfl⟩
    have hne : hs.takeWhile (fun g => !g.isSpace) ≠ [] := by
      obtain ⟨g, hs', hcons⟩ := List.exists_cons_of_ne_nil h
      have hg := pastSpace_dropWhile gs g (by rw [hcons]; rfl)
      rw [hhs, hcons]
      simp [hg]
    have hgs : gs = gs.takeWhile Glyph.isSpace ++
        (hs.takeWhile (fun g => !g.isSpace) ++ hs.dropWhile fun g => !g.isSpace) := by
      rw [List.takeWhile_append_dropWhile, hhs, List.takeWhile_append_dropWhile]
    rw [← hhs]
    rw [hgs]
    exact .named (blank_takeWhile gs) hne (solid_takeWhile hs) (atSpace_dropWhile hs)
      (describes_iff.2 rfl)

theorem names_cons_of_isSpace {g : Glyph} (hg : g.isSpace = true) {m : Marker}
    {n d : Option String} : Names m (g :: gs) n d ↔ Names m gs n d := by
  have hdrop : (g :: gs).dropWhile Glyph.isSpace = gs.dropWhile Glyph.isSpace :=
    List.dropWhile_cons_of_pos hg
  by_cases h : gs.dropWhile Glyph.isSpace = []
  · rw [names_of_dropWhile_eq_nil h, names_of_dropWhile_eq_nil (hdrop.trans h)]
  · rw [names_of_dropWhile_ne_nil h, names_of_dropWhile_ne_nil (hdrop ▸ h), hdrop]

theorem names_cons_of_not_isSpace {g : Glyph} (hg : g.isSpace = false) {m : Marker}
    {n d : Option String} : Names m (g :: gs) n d ↔
      n = some (String.ofList (g.chars ++ textOf (gs.takeWhile fun g => !g.isSpace))) ∧
        d = described (textOf ((gs.dropWhile fun g => !g.isSpace).dropWhile Glyph.isSpace)) := by
  have hdrop : (g :: gs).dropWhile Glyph.isSpace = g :: gs :=
    List.dropWhile_cons_of_neg (by simp [hg])
  rw [names_of_dropWhile_ne_nil (by simp [hdrop]), hdrop,
    List.takeWhile_cons_of_pos (by simp [hg]), List.dropWhile_cons_of_pos (by simp [hg])]
  rfl

/-! ## The keyword -/

theorem eq_some_reading_iff {a b : Reading} : some b = some a ↔
    a.marker = b.marker ∧ a.keyword = b.keyword ∧ a.name = b.name ∧ a.description = b.description := by
  cases a
  cases b
  simp [eq_comm]

/-- Behind the keyword the reader finds the name and the description. -/
theorem outcome_afterKeyword {ks : Keywords} {line column : Nat} {m : Marker} {k : Token}
    (h : Written gs) (a : Reading) :
    Stage.outcome ks line column (.afterKeyword m k) gs = some a ↔
      a.marker = m ∧ a.keyword = k.text ∧ Names m gs a.name a.description := by
  induction gs generalizing column with
  | nil =>
    rw [names_of_dropWhile_eq_nil rfl, Stage.outcome_nil]
    by_cases hm : m = .closer
    · simp [Stage.step, Stage.spaceAfterKeyword, Stage.mark?, reading, ofParts, nameText?, hm,
        eq_some_reading_iff, -Option.some.injEq]
    · simp [Stage.step, Stage.spaceAfterKeyword, Stage.mark?, hm]
  | cons g gs ih =>
    cases g with
    | plain c =>
      obtain ⟨hc, he, hgs⟩ := h
      by_cases hs : isSpace c = true
      · rw [names_cons_of_isSpace (by rw [isSpace_plain he, hs]), ← @ih (column + 1) hgs]
        simp [Stage.step, Stage.spaceAfterKeyword, hs, he]
      · rw [names_cons_of_not_isSpace (by simpa [isSpace_plain he] using hs)]
        simp [Stage.step, hs, hc, Stage.outcome_inName hgs, eq_some_reading_iff, Glyph.chars,
          -Option.some.injEq]
    | literal c =>
      obtain ⟨he, hgs⟩ := h
      rw [names_cons_of_not_isSpace rfl]
      simp [Stage.step, he, Stage.outcome_inName hgs, eq_some_reading_iff, Glyph.chars,
        -Option.some.injEq]
    | stray =>
      obtain rfl := h
      rw [names_cons_of_not_isSpace rfl]
      simp [Stage.step, Stage.spaceAfterName, Stage.mark?, reading, ofParts, nameText?, token,
        described, eq_some_reading_iff, Glyph.chars, -Option.some.injEq]

/-- The longer of two keywords, the second one if they are as long. -/
def longer (best : Option (Marker × String × Nat)) (c : Marker × String × Nat) :
    Option (Marker × String × Nat) :=
  match best with
  | none => some c
  | some b => if b.2.1.length ≤ c.2.1.length then some c else some b

theorem foldl_longer (cs : List (Marker × String × Nat)) (b : Marker × String × Nat) :
    ∃ c, cs.foldl longer (some b) = some c ∧ c ∈ b :: cs ∧
      ∀ e ∈ b :: cs, e.2.1.length ≤ c.2.1.length := by
  induction cs generalizing b with
  | nil => exact ⟨b, rfl, by simp, by simp⟩
  | cons d cs ih =>
    rw [List.foldl_cons, longer]
    by_cases hd : b.2.1.length ≤ d.2.1.length
    · obtain ⟨c, hc, hmem, hmax⟩ := ih d
      rw [if_pos hd]
      refine ⟨c, hc, List.mem_cons_of_mem _ hmem, fun e he => ?_⟩
      rcases List.mem_cons.1 he with rfl | he
      · exact Nat.le_trans hd (hmax d (List.mem_cons_self ..))
      · exact hmax e he
    · obtain ⟨c, hc, hmem, hmax⟩ := ih b
      rw [if_neg hd]
      refine ⟨c, hc, ?_, fun e he => ?_⟩
      · rcases List.mem_cons.1 hmem with rfl | hmem
        · exact List.mem_cons_self ..
        · exact List.mem_cons_of_mem _ (List.mem_cons_of_mem _ hmem)
      · simp only [List.mem_cons] at he hmax
        rcases he with rfl | rfl | he
        · exact hmax e (.inl rfl)
        · exact Nat.le_trans (Nat.le_of_not_le hd) (hmax b (.inl rfl))
        · exact hmax e (.inr he)

section

variable {ks : Keywords} {word : List Placed} {gw : List Glyph} {m : Marker} {k : String}

/-- The keywords that a word ends with, and the columns they start in. -/
def candidates (ks : Keywords) (word : List Placed) : List (Marker × String × Nat) :=
  ks.entries.filterMap fun (marker, text) =>
    if text.toList.reverse.isPrefixOf (word.map Placed.char) then
      (word[text.length - 1]?).map fun p => (marker, text, p.column)
    else none

theorem ne_empty_of_mem_entries (h : (m, k) ∈ ks.entries) : k ≠ "" := by
  simpa using (List.mem_filter.1 h).2

theorem mem_candidates (hw : (word.map Placed.char).reverse = textOf gw) :
    (∃ col, (m, k, col) ∈ candidates ks word) ↔ EndsWith ks gw m k := by
  have hsuffix : k.toList.reverse.isPrefixOf (word.map Placed.char) = true ↔
      k.toList <:+ textOf gw := by
    rw [List.isPrefixOf_iff_prefix, ← hw, ← List.reverse_prefix, List.reverse_reverse]
  unfold candidates EndsWith
  simp only [List.mem_filterMap]
  constructor
  · rintro ⟨col, ⟨marker, text⟩, hmem, he⟩
    obtain ⟨hends, he⟩ := Option.ite_none_right_eq_some.1 he
    obtain ⟨p, -, he⟩ := Option.map_eq_some_iff.1 he
    obtain ⟨rfl, rfl, -⟩ : marker = m ∧ text = k ∧ p.column = col := by simpa using he
    exact ⟨hmem, hsuffix.1 hends⟩
  · rintro ⟨hmem, hk⟩
    have hlen : k.length ≤ word.length := by
      have := hk.length_le
      rwa [← hw, List.length_reverse, List.length_map, String.length_toList] at this
    have hpos : 0 < k.length := by
      rw [← String.length_toList, List.length_pos_iff]
      simpa using ne_empty_of_mem_entries hmem
    have hcol : word[k.length - 1]? = some word[k.length - 1] := List.getElem?_eq_getElem (by omega)
    exact ⟨word[k.length - 1].column, (m, k), hmem, by simp only [if_pos (hsuffix.2 hk), hcol]; rfl⟩

/-- Two keywords of one length that a word ends with are the same. -/
theorem eq_of_endsWith (hk : (ks.entries.map Prod.snd).Nodup) {m' : Marker} {k' : String}
    (h : EndsWith ks gw m k) (h' : EndsWith ks gw m' k') (hlen : k.length = k'.length) :
    m = m' ∧ k = k' := by
  have hkk : k = k' := by
    obtain ⟨-, l, hl⟩ := h
    obtain ⟨-, l', hl'⟩ := h'
    have := (List.append_inj' (hl.trans hl'.symm)
      (by rw [String.length_toList, String.length_toList, hlen])).2
    exact String.toList_injective this
  subst hkk
  have := List.inj_on_of_nodup_map hk h.1 h'.1 rfl
  exact ⟨congrArg Prod.fst this, rfl⟩

/-- The keyword of a word is one of its candidates, and no candidate is longer. -/
theorem keyword?_cases (ks : Keywords) (word : List Placed) :
    keyword? ks word = none ∧ candidates ks word = [] ∨
      ∃ c ∈ candidates ks word, keyword? ks word = some c ∧
        ∀ e ∈ candidates ks word, e.2.1.length ≤ c.2.1.length := by
  rw [show keyword? ks word = (candidates ks word).foldl longer none from rfl]
  cases candidates ks word with
  | nil => exact .inl ⟨rfl, rfl⟩
  | cons b cs =>
    obtain ⟨c, hc, hmem, hmax⟩ := foldl_longer cs b
    exact .inr ⟨c, hmem, hc, hmax⟩

/-- The reader sees no keyword where the word ends with none. -/
theorem keyword?_eq_none (hw : (word.map Placed.char).reverse = textOf gw) :
    keyword? ks word = none ↔ ∀ m k, ¬ EndsWith ks gw m k := by
  rcases keyword?_cases ks word with ⟨hnone, hempty⟩ | ⟨⟨m, k, col⟩, hmem, hsome, -⟩
  · refine iff_of_true hnone fun m k h => ?_
    obtain ⟨col, hmem⟩ := (mem_candidates hw).2 h
    rw [hempty] at hmem
    cases hmem
  · refine iff_of_false (by rw [hsome]; simp) fun h => h m k ((mem_candidates hw).1 ⟨col, hmem⟩)

/-- The keyword that the reader sees is the longest one that the word ends with. -/
theorem keyword?_eq_some (hk : (ks.entries.map Prod.snd).Nodup)
    (hw : (word.map Placed.char).reverse = textOf gw) :
    (∃ col, keyword? ks word = some (m, k, col)) ↔ Decides ks gw m k := by
  rcases keyword?_cases ks word with ⟨hnone, hempty⟩ | ⟨⟨m', k', col'⟩, hmem, hsome, hmax⟩
  · refine iff_of_false (by rw [hnone]; simp) fun h => ?_
    obtain ⟨col, hmem⟩ := (mem_candidates hw).2 h.1
    rw [hempty] at hmem
    cases hmem
  · have hends : EndsWith ks gw m' k' := (mem_candidates hw).1 ⟨col', hmem⟩
    have hlongest : ∀ m k, EndsWith ks gw m k → k.length ≤ k'.length := by
      intro m k h
      obtain ⟨col, hcol⟩ := (mem_candidates hw).2 h
      exact hmax _ hcol
    rw [hsome]
    constructor
    · rintro ⟨col, he⟩
      obtain ⟨rfl, rfl, -⟩ : m' = m ∧ k' = k ∧ col' = col := by simpa using he
      exact ⟨hends, hlongest⟩
    · rintro ⟨h, hmax'⟩
      obtain ⟨rfl, rfl⟩ := eq_of_endsWith hk h hends
        (Nat.le_antisymm (hlongest m k h) (hmax' m' k' hends))
      exact ⟨col', rfl⟩

/-- A line is a word and then nothing more or a space. -/
theorem opens_word_iff {rest r : List Glyph} (hs : Solid gw) (hr : AtSpace rest) :
    Opens ks (gw ++ rest) m k r ↔ Decides ks gw m k ∧ r = rest ∨
      (∀ m k, ¬ EndsWith ks gw m k) ∧ ∃ space more, rest = space :: more ∧ Opens ks more m k r := by
  constructor
  · intro h
    generalize hline : gw ++ rest = gs at h
    cases h with
    | @here word rest' m k hword hrest hdec =>
      obtain ⟨rfl, rfl⟩ := solid_append_inj hs hr hword hrest hline
      exact .inl ⟨hdec, rfl⟩
    | @behind word space more m k rest' hword hspace hno hmore =>
      obtain ⟨rfl, rfl⟩ := solid_append_inj hs hr hword
        (by simpa [AtSpace] using hspace) hline
      exact .inr ⟨hno, space, more, rfl, hmore⟩
  · rintro (⟨hdec, rfl⟩ | ⟨hno, space, more, rfl, hmore⟩)
    · exact .here hs hr hdec
    · exact .behind hs (hr space rfl) hno hmore

theorem annotates_of_decides {rest : List Glyph} (hk : (ks.entries.map Prod.snd).Nodup)
    (hs : Solid gw) (hr : AtSpace rest) (h : Decides ks gw m k) (a : Reading) :
    Annotates ks (gw ++ rest) a ↔
      a.marker = m ∧ a.keyword = k ∧ Names m rest a.name a.description := by
  unfold Annotates
  simp only [opens_word_iff hs hr]
  constructor
  · rintro ⟨r, ⟨hdec, rfl⟩ | ⟨hno, -⟩, hnames⟩
    · obtain ⟨rfl, rfl⟩ := eq_of_endsWith hk hdec.1 h.1
        (Nat.le_antisymm (h.2 _ _ hdec.1) (hdec.2 _ _ h.1))
      exact ⟨rfl, rfl, hnames⟩
    · exact absurd h.1 (hno m k)
  · rintro ⟨rfl, rfl, hnames⟩
    exact ⟨rest, .inl ⟨h, rfl⟩, hnames⟩

theorem annotates_of_not_endsWith {rest : List Glyph} (hs : Solid gw) (hr : AtSpace rest)
    (h : ∀ m k, ¬ EndsWith ks gw m k) (a : Reading) :
    Annotates ks (gw ++ rest) a ↔ ∃ space more, rest = space :: more ∧ Annotates ks more a := by
  unfold Annotates
  simp only [opens_word_iff hs hr]
  constructor
  · rintro ⟨r, ⟨hdec, -⟩ | ⟨-, space, more, rfl, hmore⟩, hnames⟩
    · exact absurd hdec.1 (h _ _)
    · exact ⟨space, more, rfl, r, hmore, hnames⟩
  · rintro ⟨space, more, rfl, r, hmore, hnames⟩
    exact ⟨r, .inr ⟨h, space, more, rfl, hmore⟩, hnames⟩

theorem atSpace_nil : AtSpace [] := by simp [AtSpace]

theorem atSpace_cons {g : Glyph} {gs : List Glyph} (h : g.isSpace = true) : AtSpace (g :: gs) := by
  simpa [AtSpace] using h

/-- The end of the line ends the word that the reader is in. -/
theorem reading_spaceInLeading {line column : Nat} (hk : (ks.entries.map Prod.snd).Nodup)
    (hw : (word.map Placed.char).reverse = textOf gw) (hs : Solid gw) (a : Reading) :
    (Stage.spaceInLeading ks line column word '\n').mark?.map reading = some a ↔
      Annotates ks gw a := by
  rw [← List.append_nil gw]
  unfold Stage.spaceInLeading
  cases hkw : keyword? ks word with
  | none =>
    rw [annotates_of_not_endsWith hs atSpace_nil ((keyword?_eq_none hw).1 hkw)]
    simp [Stage.start, Stage.mark?]
  | some e =>
    obtain ⟨m, k, col⟩ := e
    rw [annotates_of_decides hk hs atSpace_nil ((keyword?_eq_some hk hw).1 ⟨col, hkw⟩)]
    exact @outcome_afterKeyword [] ks line column m (token line k col column) trivial a

/-- A space ends the word that the reader is in. -/
theorem outcome_spaceInLeading {line column : Nat} {c : Char} (hk : (ks.entries.map Prod.snd).Nodup)
    (hgs : Written gs) (he : endsLine c = false) (hc : isSpace c = true)
    (hw : (word.map Placed.char).reverse = textOf gw) (hs : Solid gw) (a : Reading)
    (next : Stage.outcome ks line (column + 1) .start gs = some a ↔ Annotates ks gs a) :
    Stage.outcome ks line (column + 1) (Stage.spaceInLeading ks line column word c) gs = some a ↔
      Annotates ks (gw ++ .plain c :: gs) a := by
  have hspace : (Glyph.plain c).isSpace = true := by rw [isSpace_plain he, hc]
  unfold Stage.spaceInLeading
  cases hkw : keyword? ks word with
  | none =>
    rw [annotates_of_not_endsWith hs (atSpace_cons hspace) ((keyword?_eq_none hw).1 hkw)]
    simpa using next
  | some e =>
    obtain ⟨m, k, col⟩ := e
    rw [annotates_of_decides hk hs (atSpace_cons hspace) ((keyword?_eq_some hk hw).1 ⟨col, hkw⟩),
      names_cons_of_isSpace hspace]
    simpa [Stage.spaceAfterKeyword, he, token] using
      @outcome_afterKeyword gs ks line (column + 1) m (token line k col column) hgs a

/-- A word that goes on by one glyph. -/
theorem textOf_concat {g : Glyph} {c : Char} (col : Nat) (hg : g.chars = [c])
    (hw : (word.map Placed.char).reverse = textOf gw) :
    (((⟨c, col⟩ : Placed) :: word).map Placed.char).reverse = textOf (gw ++ [g]) := by
  rw [textOf_append, List.map_cons, List.reverse_cons, hw]
  simp [textOf, hg]

theorem solid_concat {g : Glyph} (hs : Solid gw) (hg : g.isSpace = false) : Solid (gw ++ [g]) := by
  intro f hf
  rcases List.mem_append.1 hf with hf | hf
  · exact hs f hf
  · rw [List.mem_singleton.1 hf, hg]

/-- Before the end of the keyword part the reader knows the word that it is in. -/
theorem outcome_leading {line column : Nat} (hk : (ks.entries.map Prod.snd).Nodup)
    (h : Written gs) (hw : (word.map Placed.char).reverse = textOf gw) (hs : Solid gw) (a : Reading) :
    Stage.outcome ks line column (.leading word false) gs = some a ↔ Annotates ks (gw ++ gs) a := by
  -- glyphs go over from what is left to the word
  induction gs generalizing column word gw with
  | nil => simpa [Stage.step] using @reading_spaceInLeading ks word gw line column hk hw hs a
  | cons g gs ih =>
    cases g with
    | plain c =>
      obtain ⟨hc, he, hgs⟩ := h
      by_cases hsp : isSpace c = true
      · have next := @ih [] [] (column + 1) hgs rfl (by simp [Solid])
        simpa [Stage.step, hc, hsp] using outcome_spaceInLeading hk hgs he hsp hw hs a next
      · have hg : (Glyph.plain c).isSpace = false := by simpa [isSpace_plain he] using hsp
        have next := @ih _ _ (column + 1) hgs (textOf_concat column rfl hw) (solid_concat hs hg)
        rw [List.append_assoc] at next
        simpa [Stage.step, hc, hsp] using next
    | literal c =>
      obtain ⟨he, hgs⟩ := h
      have hg : (Glyph.literal c).isSpace = false := rfl
      have next := @ih _ _ (column + 2) hgs (textOf_concat (column + 1) rfl hw) (solid_concat hs hg)
      rw [List.append_assoc] at next
      simpa [Stage.step, he] using next
    | stray =>
      obtain rfl := h
      have hw' : (word.map Placed.char).reverse = textOf (gw ++ [.stray]) := by
        rw [hw, textOf_append]; simp
      simpa [Stage.step] using
        @reading_spaceInLeading ks word _ line (column + 1) hk hw' (solid_concat hs rfl) a

end

/-! ## Lines -/

/-- The reader finds the texts of a line's mark, if the grammar has any for it. -/
theorem reading_finish_iff {ks : Keywords} (hk : (ks.entries.map Prod.snd).Nodup) {text : String}
    (ht : ∀ c ∈ text.toList, c ≠ '\n' ∧ c ≠ '\r') (line : Nat) (a : Reading) :
    ((Reader.new ks).read text line).finish.1.map reading = some a ↔
      Annotates ks (glyphs text.toList) a := by
  have hwritten : Written (glyphs text.toList) :=
    written_glyphs fun c hc => by simpa [endsLine] using ht c hc
  rw [reading_finish]
  exact @outcome_leading _ ks [] [] line 0 hk hwritten rfl (by simp [Solid]) a

/-- The first word is no keyword, the name has a space in it and the backslash at the end of the
description stands for nothing. -/
theorem reading_finish_iff_escaped :
    let line := "// #region na\\ me  a b\\"
    (Keywords.standard.entries.map Prod.snd).Nodup ∧ (∀ c ∈ line.toList, c ≠ '\n' ∧ c ≠ '\r') ∧
      Annotates .standard (glyphs line.toList) ⟨.opener, "#region", some "na me", some "a b"⟩ :=
  ⟨by decide, by simp, (reading_finish_iff (by decide) (by simp) 0 _).1 (by decide)⟩

end SymbolOutline.Mark
