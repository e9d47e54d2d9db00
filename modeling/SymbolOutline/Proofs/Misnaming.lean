import Mathlib.Data.List.Nodup
import SymbolOutline.Proofs.Grammar
import SymbolOutline.Proofs.Renaming

/-
New names that are not read back (`readsBack_iff`). A rename puts the new name into the line as it is. What
is read there is the new name exactly if it has no backslash and no space; else a part of it goes missing
or runs into the description.

A name is never longer than what it is written as (`length_textOf_le`), so the new name is read back from more
than its own characters or from just these, each of which stands for itself then. More cannot be: the
characters behind the new name belong to the description, which would lack them.
-/

namespace SymbolOutline

namespace Mark

/-! ## Glyphs and what they are written as -/

variable {gs hs : List Glyph} {cs : List Char}

/-- What glyphs are written as. -/
def sourceOf (gs : List Glyph) : List Char := gs.flatMap Glyph.source

theorem sourceOf_append (gs hs : List Glyph) : sourceOf (gs ++ hs) = sourceOf gs ++ sourceOf hs :=
  List.flatMap_append

/-- Glyphs stand for no more than what they are written as. -/
theorem length_textOf_le (gs : List Glyph) : (textOf gs).length ≤ (sourceOf gs).length := by
  induction gs with
  | nil => exact Nat.le_refl _
  | cons g gs ih =>
    rw [sourceOf, List.flatMap_cons, ← sourceOf, List.length_append]
    cases g <;> simp [Glyph.source] <;> omega

/-- Glyphs that stand for as much as they are written as are characters that stand for themselves. -/
theorem eq_plain_of_length (h : (sourceOf gs).length ≤ (textOf gs).length) :
    gs = (textOf gs).map .plain := by
  induction gs with
  | nil => rfl
  | cons g gs ih =>
    have hle := length_textOf_le gs
    rw [sourceOf, List.flatMap_cons, ← sourceOf, List.length_append] at h
    cases g with
    | plain c =>
      rw [textOf_plain, List.length_cons] at h
      rw [textOf_plain, List.map_cons, ← ih (by simp [Glyph.source] at h; omega)]
    | literal c =>
      simp [Glyph.source] at h
      omega
    | stray =>
      simp [Glyph.source] at h
      omega

theorem eq_nil_of_length_sourceOf (h : (sourceOf gs).length = 0) : gs = [] := by
  cases gs with
  | nil => rfl
  | cons g gs =>
    rw [sourceOf, List.flatMap_cons, List.length_append] at h
    cases g <;> simp [Glyph.source] at h

/-- The glyphs of a text do not depend on what follows, save for a backslash at its end. -/
theorem glyphs_append_cases (cs : List Char) : (∀ ds, glyphs (cs ++ ds) = glyphs cs ++ glyphs ds) ∨
    ∃ front, cs = front ++ ['\\'] ∧ ∀ ds, glyphs (front ++ ds) = glyphs front ++ glyphs ds := by
  fun_induction glyphs cs with
  | case1 => exact .inl fun ds => rfl
  | case2 => exact .inr ⟨[], rfl, fun ds => rfl⟩
  | case3 c hc => exact .inl fun ds => glyphs_plain hc ds
  | case4 d cs ih =>
    rcases ih with h | ⟨front, rfl, h⟩
    · refine .inl fun ds => ?_
      rw [List.cons_append, List.cons_append, glyphs_literal, h]
      rfl
    · refine .inr ⟨'\\' :: d :: front, rfl, fun ds => ?_⟩
      rw [List.cons_append, List.cons_append, glyphs_literal, glyphs_literal, h]
      rfl
  | case5 c d cs hc ih =>
    rcases ih with h | ⟨front, hfront, h⟩
    · refine .inl fun ds => ?_
      rw [List.cons_append, glyphs_plain hc, h]
      rfl
    · refine .inr ⟨c :: front, by rw [hfront]; rfl, fun ds => ?_⟩
      rw [List.cons_append, glyphs_plain hc, glyphs_plain hc, h]
      rfl

theorem ne_backslash_of_mem {c : Char} (h : Written gs) (hc : .plain c ∈ gs) : c ≠ '\\' := by
  induction gs with
  | nil => cases hc
  | cons g gs ih =>
    rcases List.mem_cons.1 hc with rfl | hmem
    · exact h.1
    · cases g with
      | plain => exact ih h.2.2 hmem
      | literal => exact ih h.2 hmem
      | stray =>
        obtain rfl := h
        cases hmem

/-! ## Names that are read back -/

theorem described_injective {x y : List Char} (h : described x = described y) : x = y := by
  unfold described at h
  split_ifs at h with hx hy hy
  · rw [hx, hy]
  · exact String.ofList_inj.1 (Option.some.inj h)

theorem length_textOf_dropWhile_le (p : Glyph → Bool) (gs : List Glyph) :
    (textOf (gs.dropWhile p)).length ≤ (textOf gs).length := by
  have h := congrArg (fun gs => (textOf gs).length) (@List.takeWhile_append_dropWhile _ p gs)
  simp only [textOf_append, List.length_append] at h
  omega

/-- In front of a name are spaces, and behind it the description. -/
theorem dropWhile_gap_name {gap name rest : List Glyph} (hgap : Blank gap) (hne : name ≠ [])
    (hname : Solid name) : (gap ++ (name ++ rest)).dropWhile Glyph.isSpace = name ++ rest := by
  refine dropWhile_blank_append hgap fun g hg => ?_
  obtain ⟨f, name, rfl⟩ := List.exists_cons_of_ne_nil hne
  obtain rfl : f = g := Option.some.inj hg
  exact hname f (List.mem_cons_self ..)

/-- Glyphs in three parts stand for as many characters as the parts together. -/
theorem length_parts {cs : List Char} {gap name rest : List Glyph} (h : glyphs cs = gap ++ (name ++ rest)) :
    (sourceOf gap).length + ((sourceOf name).length + (sourceOf rest).length) = cs.length := by
  rw [← List.length_append, ← List.length_append, ← sourceOf_append, ← sourceOf_append, ← h, sourceOf,
    source_glyphs]

section

variable {new : List Char} {gap name rest more : List Glyph} (hgap : Blank gap) (hne : name ≠ [])
  (hname : Solid name) (hnew : textOf name = new)
include hgap hne hname hnew

/-- Where the glyphs of the new name end with it, and the description is what it was, each character
of the new name stands for itself. -/
theorem eq_plain_of_aligned (hnil : new ≠ []) (hmore : AtSpace more)
    (htext : textOf (rest.dropWhile Glyph.isSpace) = textOf (more.dropWhile Glyph.isSpace))
    (h : glyphs new ++ more = gap ++ (name ++ rest)) : glyphs new = new.map .plain ∧ Solid (glyphs new) := by
  -- a name is not longer than the new one only if it is all of it
  have hwhole : ∀ behind, glyphs new = gap ++ (name ++ behind) →
      glyphs new = new.map .plain ∧ Solid (glyphs new) := by
    intro behind hsplit
    have hlength := length_parts hsplit
    rw [← hnew] at hlength
    have hle := length_textOf_le name
    obtain rfl : gap = [] := eq_nil_of_length_sourceOf (by omega)
    obtain rfl : behind = [] := eq_nil_of_length_sourceOf (by omega)
    rw [List.nil_append, List.append_nil] at hsplit
    rw [hsplit]
    exact ⟨(eq_plain_of_length (by omega)).trans (by rw [hnew]), hname⟩
  rcases List.append_eq_append_iff.1 h with ⟨behind, hsplit, hrest⟩ | ⟨front, hsplit, hfront⟩
  · -- the new name would be a gap, and the name a part of the description
    rw [hrest, dropWhile_gap_name (fun g hg => hgap g (hsplit ▸ List.mem_append_right _ hg)) hne hname,
      textOf_append] at htext
    have hle := length_textOf_dropWhile_le Glyph.isSpace rest
    have hpos : 0 < (textOf name).length := hnew ▸ List.length_pos_of_ne_nil hnil
    have := congrArg List.length htext
    rw [List.length_append] at this
    omega
  · rcases List.append_eq_append_iff.1 hfront with ⟨behind, hcut, -⟩ | ⟨behind, hcut, hbehind⟩
    · exact hwhole behind (by rw [hsplit, hcut])
    · cases behind with
      | nil =>
        rw [List.append_nil] at hcut
        exact hwhole [] (by rw [hsplit, hcut, List.append_nil])
      | cons g behind =>
        -- the name would go on with the space behind the new one
        have hspace := hmore g (by rw [hbehind]; rfl)
        rw [hname g (by rw [hcut]; simp)] at hspace
        cases hspace

/-- A backslash at the end of the new name takes the space behind it, and is not read back itself. -/
theorem not_aligned {front tail : List Char} {space : Char} (hback : new = front ++ ['\\'])
    (hspace : (Glyph.plain space).isSpace = true)
    (htext : textOf (rest.dropWhile Glyph.isSpace) =
      textOf ((Glyph.plain space :: glyphs tail).dropWhile Glyph.isSpace))
    (h : glyphs front ++ (Glyph.literal space :: glyphs tail) = gap ++ (name ++ rest)) : False := by
  rw [List.dropWhile_cons_of_pos hspace] at htext
  -- the name is too short if it ends before that
  have hlong : ∀ behind, glyphs front ≠ gap ++ (name ++ behind) := by
    intro behind hsplit
    have hlength := length_parts hsplit
    have hle := length_textOf_le name
    rw [hnew, hback, List.length_append, List.length_singleton] at hle
    omega
  -- if it goes on, it ends with the space or takes a part of the description
  have hshort : ∀ before behind, name = before ++ Glyph.literal space :: behind →
      glyphs tail ≠ behind ++ rest := by
    intro before behind hsplit htail
    by_cases hnothing : textOf behind = []
    · rw [hsplit, textOf_append, textOf_literal, hnothing, hback] at hnew
      obtain rfl : space = '\\' := by simpa using congrArg List.getLast? hnew
      cases hspace
    · have hbehind : behind ≠ [] := fun h => hnothing (h ▸ rfl)
      have hsolid : Solid behind := fun g hg => hname g (by rw [hsplit]; simp [hg])
      rw [htail, ← List.nil_append (behind ++ rest),
        dropWhile_gap_name (fun g hg => by cases hg) hbehind hsolid, textOf_append] at htext
      have hle := length_textOf_dropWhile_le Glyph.isSpace rest
      have hpos := List.length_pos_of_ne_nil hnothing
      have := congrArg List.length htext
      rw [List.length_append] at this
      omega
  have hstart : ∀ before behind, name = before ++ behind →
      Glyph.literal space :: glyphs tail = behind ++ rest → behind = [] := by
    intro before behind hsplit hbehind
    cases behind with
    | nil => rfl
    | cons g behind =>
      obtain ⟨rfl, htail⟩ := List.cons.inj hbehind
      exact absurd htail (hshort before behind hsplit)
  rcases List.append_eq_append_iff.1 h with ⟨behind, hsplit, hrest⟩ | ⟨before, hsplit, hbefore⟩
  · cases behind with
    | nil => exact hne (hstart [] name rfl hrest)
    | cons g behind =>
      -- what is behind a backslash is not a gap
      obtain ⟨rfl, -⟩ := List.cons.inj hrest
      have := hgap (.literal space) (by rw [hsplit]; simp)
      cases this
  · rcases List.append_eq_append_iff.1 hbefore with ⟨behind, hcut, -⟩ | ⟨behind, hcut, hrest⟩
    · exact hlong behind (by rw [hsplit, hcut])
    · obtain rfl := hstart before behind hcut hrest
      exact hlong [] (by rw [hsplit, hcut, List.append_nil, List.append_nil])

end

theorem atSpace_glyphs_cons {space : Char} {tail : List Char} (h : AtSpace (glyphs (space :: tail))) :
    (Glyph.plain space).isSpace = true ∧ glyphs (space :: tail) = .plain space :: glyphs tail := by
  have hplain : space ≠ '\\' := by
    rintro rfl
    cases tail with
    | nil => cases h .stray rfl
    | cons c tail => cases h (.literal c) rfl
  rw [glyphs_plain hplain] at h ⊢
  exact ⟨h _ rfl, rfl⟩

/-- A new name that is put in front of the end of a line is read back, with the description as it was, only if
it has no backslash and no space. -/
theorem plain_of_names {m : Marker} {new tail : List Char} (hnil : new ≠ [])
    (hnew : ∀ c ∈ new, endsLine c = false) (htail : AtSpace (glyphs tail))
    (h : Names m (glyphs (new ++ tail)) (some (String.ofList new))
      (described (textOf ((glyphs tail).dropWhile Glyph.isSpace)))) :
    ∀ c ∈ new, c ≠ '\\' ∧ isSpace c = false := by
  generalize hgs : glyphs (new ++ tail) = gs at h
  generalize hn : some (String.ofList new) = n at h
  generalize hd : described (textOf ((glyphs tail).dropWhile Glyph.isSpace)) = d at h
  cases h with
  | unnamed => cases hn
  | @named _ gap name rest _ hgap hne hname _ hdescribes =>
    have htext := described_injective (hd.trans (describes_iff.1 hdescribes)).symm
    have hread : textOf name = new := (String.ofList_inj.1 (Option.some.inj hn)).symm
    rcases glyphs_append_cases new with hsplit | ⟨front, hback, hsplit⟩
    · rw [hsplit] at hgs
      obtain ⟨hplain, hsolid⟩ := eq_plain_of_aligned hgap hne hname hread hnil htail htext hgs
      have hwritten := written_glyphs hnew
      intro c hc
      have hmem : Glyph.plain c ∈ glyphs new := by
        rw [hplain]
        exact List.mem_map_of_mem hc
      exact ⟨ne_backslash_of_mem hwritten hmem, isSpace_plain (hnew c hc) ▸ hsolid _ hmem⟩
    · exfalso
      rw [hback, List.append_assoc, hsplit, List.singleton_append] at hgs
      cases tail with
      | nil =>
        have hlength := congrArg (fun gs => (textOf gs).length) hgs
        simp only [textOf_append, List.length_append, glyphs, if_true, textOf_stray, textOf_nil,
          List.length_nil, hread, hback, List.length_singleton] at hlength
        have hle := length_textOf_le (glyphs front)
        rw [sourceOf, source_glyphs] at hle
        omega
      | cons space tail =>
        obtain ⟨hspace, hglyphs⟩ := atSpace_glyphs_cons htail
        rw [hglyphs] at htext
        rw [glyphs_literal] at hgs
        exact not_aligned hgap hne hname hread hback hspace htext hgs

/-! ## Ends of lines -/

/-- A stage behind the keyword. There a character that ends a line does so wherever it is. -/
def Stage.Behind : Stage → Prop
  | leading _ _ => False
  | _ => True

variable {ks : Keywords} {line column : Nat} {s : Stage} {m : Marker} {k n : Token}

theorem behind_step (hs : s.Behind) (c : Char) : (s.step ks line column c).Behind := by
  cases s with
  | leading => cases hs
  | afterKeyword =>
    rw [Stage.step, Stage.spaceAfterKeyword]
    split_ifs <;> trivial
  | inName =>
    rw [Stage.step, Stage.spaceAfterName]
    split_ifs <;> trivial
  | afterName =>
    rw [Stage.step, Stage.spaceAfterName]
    split_ifs <;> trivial
  | inDescription =>
    rw [Stage.step, Stage.endDescription]
    split_ifs <;> trivial
  | complete => trivial
  | nameless => trivial

/-- Characters that end a line do the same, and nothing is read behind them. -/
theorem mark?_readAll_endsLine (hs : s.Behind) {c : Char} (hc : endsLine c = true) (cs : List Char) :
    (Stage.readAll ks line column (c :: cs) s).mark? = (s.step ks line column '\n').mark? := by
  have hspace := isSpace_of_endsLine hc
  have hplain : c ≠ '\\' := by
    rintro rfl
    cases hc
  rw [Stage.readAll]
  cases s with
  | leading => cases hs
  | afterKeyword m k =>
    rw [Stage.step, if_pos hspace, Stage.spaceAfterKeyword, if_pos hc]
    split_ifs with hm <;> simp [readAll_complete, readAll_nameless, Stage.step, Stage.spaceAfterKeyword, hm]
  | inName m k start word escaping =>
    simp [Stage.step, Stage.spaceAfterName, hspace, hc, hplain, readAll_complete]
  | afterName m k n => simp [Stage.step, Stage.spaceAfterName, hspace, hc, readAll_complete]
  | inDescription m k n start word escaping =>
    simp [Stage.step, Stage.endDescription, hc, readAll_complete]
  | complete a =>
    rw [Stage.step, readAll_complete]
    rfl
  | nameless =>
    rw [Stage.step, readAll_nameless]
    rfl

theorem mark?_readAll_append (hs : s.Behind) {c : Char} (hc : endsLine c = true) (cs ds : List Char) :
    (Stage.readAll ks line column (cs ++ c :: ds) s).mark? =
      (Stage.readAll ks line column (cs ++ ['\n']) s).mark? := by
  induction cs generalizing column s with
  | nil => exact mark?_readAll_endsLine hs hc ds
  | cons d cs ih => exact ih (behind_step hs d)

/-- The part of a line that is read. -/
def upToEnd (cs : List Char) : List Char := cs.takeWhile fun c => !endsLine c

theorem endsLine_of_mem_upToEnd {cs : List Char} {c : Char} (h : c ∈ upToEnd cs) : endsLine c = false := by
  simpa using List.mem_takeWhile_imp h

/-- Behind the keyword the glyphs tell what is read, up to the first end of the line. -/
theorem reading_readAll (hs : s.Behind) (cs : List Char) :
    (Stage.readAll ks line column (cs ++ ['\n']) s).mark?.map reading =
      Stage.outcome ks line column s (glyphs (upToEnd cs)) := by
  have hsource : (glyphs (upToEnd cs)).flatMap Glyph.source = upToEnd cs := source_glyphs _
  rw [Stage.outcome, hsource]
  have hcut : upToEnd cs ++ cs.dropWhile (fun c => !endsLine c) = cs := List.takeWhile_append_dropWhile
  cases hdrop : cs.dropWhile fun c => !endsLine c with
  | nil =>
    rw [hdrop, List.append_nil] at hcut
    rw [hcut]
  | cons c ds =>
    have hc : endsLine c = true := by
      have := List.head?_dropWhile_not (fun c => !endsLine c) cs
      rw [hdrop] at this
      simpa using this
    rw [hdrop] at hcut
    conv_lhs => rw [← hcut, List.append_assoc, List.cons_append]
    rw [mark?_readAll_append hs hc]

/-! ## Lines -/

/-- What is read of a line behind a name is nothing, or it starts with a space. -/
theorem atSpace_upToEnd {tail post : List Char} {space : Char} (h : tail ++ ['\n'] = space :: post)
    (hspace : isSpace space = true) : AtSpace (glyphs (upToEnd tail)) := by
  cases tail with
  | nil => exact atSpace_nil
  | cons c tail =>
    obtain ⟨rfl, -⟩ := List.cons.inj h
    unfold upToEnd
    by_cases hc : endsLine c = true
    · rw [List.takeWhile_cons_of_neg (by simp [hc])]
      exact atSpace_nil
    · have hplain : c ≠ '\\' := by
        rintro rfl
        cases hspace
      rw [List.takeWhile_cons_of_pos (by simp [hc]), glyphs_plain hplain]
      exact atSpace_cons ((isSpace_plain (by simpa using hc)).trans hspace)

variable {a a' : Mark} {l : Nat × String} {new : String}

/-- The description of a mark is what is read behind its name. -/
theorem description_eq {pre body post tail : List Char} {space : Char}
    (hname : NameAt ks line 0 .start pre body space m k n) (htail : tail ++ ['\n'] = space :: post)
    (hread : Stage.readAll ks line 0 (pre ++ (body ++ space :: post)) .start = .complete a) :
    a.description.map Token.text =
      described (textOf ((glyphs (upToEnd tail)).dropWhile Glyph.isSpace)) := by
  have hcut : pre ++ (body ++ space :: post) = pre ++ (body ++ [space]) ++ post := by simp
  have hbehind : Stage.readAll ks line (0 + (pre ++ body).length) (tail ++ ['\n']) (.afterName m k n) =
      .complete a := by
    rw [hcut, Stage.readAll_append, hname.sound.1] at hread
    rw [htail, Stage.readAll, Stage.step, if_pos hname.isSpace, ← hread]
    simp [Nat.add_assoc]
  have hreading := @reading_readAll ks line (0 + (pre ++ body).length) (.afterName m k n) trivial tail
  rw [hbehind, Stage.outcome_afterName (written_glyphs fun c hc => endsLine_of_mem_upToEnd hc)] at hreading
  exact congrArg Reading.description (Option.some.inj hreading)

/-- A line is read with the new name and with the description that it had only if the new name has no
backslash and no space. -/
theorem plain_of_lineMark?_onLine (ha : lineMark? ks l = some a) (hn : a.name = some n) (hnil : new ≠ "")
    (hnew : ∀ c ∈ new.toList, c ≠ '\n' ∧ c ≠ '\r')
    (ha' : lineMark? ks (TextEdit.onLine ⟨n.range, new⟩ l) = some a') (hname' : a'.nameText? = some new)
    (hdescription : a'.description.map Token.text = a.description.map Token.text) :
    ∀ c ∈ new.toList, c ≠ '\\' ∧ isSpace c = false := by
  obtain ⟨pre, body, space, post, tail, m, k, hname, -, htail, hread, honline⟩ :=
    exists_name_of_lineMark? ha hn
  have hends : ∀ c ∈ new.toList, endsLine c = false := fun c hc => by simpa [endsLine] using hnew c hc
  have hupTo : upToEnd (new.toList ++ tail) = new.toList ++ upToEnd tail :=
    List.takeWhile_append_of_pos fun c hc => by simp [hends c hc]
  rw [honline, lineMark?_eq_some, String.toList_ofList, List.append_assoc, Stage.readAll_append,
    hname.before] at ha'
  have hreading := @reading_readAll ks l.1 (0 + pre.length) (.afterKeyword m k) trivial (new.toList ++ tail)
  rw [ha'.2, hupTo] at hreading
  have hwritten : Written (glyphs (new.toList ++ upToEnd tail)) := written_glyphs fun c hc => by
    rcases List.mem_append.1 hc with hc | hc
    · exact hends c hc
    · exact endsLine_of_mem_upToEnd hc
  have hnames : Names m (glyphs (new.toList ++ upToEnd tail)) a'.nameText? (a'.description.map Token.text) :=
    ((outcome_afterKeyword hwritten (reading a')).1 hreading.symm).2.2
  rw [hname', hdescription, description_eq hname htail hread] at hnames
  have hspace := atSpace_upToEnd htail hname.isSpace
  exact @plain_of_names m new.toList _ (by simpa using hnil) hends hspace (by
    rw [String.ofList_toList]
    exact hnames)

/-- A mark on the line of another one, with the same texts but for the name. -/
structure Bears (new : String) (a a' : Mark) : Prop where
  line : a'.range.firstLine = a.range.firstLine
  marker : a'.marker = a.marker
  name : a'.nameText? = some new
  description : a'.description.map Token.text = a.description.map Token.text

theorem bears_renamed (hn : a.name = some n) (ha : lineMark? ks l = some a)
    (ha' : lineMark? ks (TextEdit.onLine ⟨n.range, new⟩ l) = some (a.renamed new)) :
    a.Bears new (a.renamed new) where
  line := by
    rw [(stands_of_lineMark? ha).firstLine, (stands_of_lineMark? ha').firstLine, TextEdit.fst_onLine]
  marker := marker_renamed new a
  name := by
    rw [nameText?_renamed, nameText?, hn]
    rfl
  description := by
    unfold renamed
    rw [hn]
    cases a.description <;> rfl

end Mark

/-! ## Documents -/

theorem TextEdit.fst_foldl_onLine (es : List TextEdit) (l : Nat × String) :
    (es.foldl (fun l e => e.onLine l) l).1 = l.1 := by
  induction es generalizing l with
  | nil => rfl
  | cons e es ih => rw [List.foldl_cons, ih, fst_onLine]

namespace TextLines

open Mark

/-- Once the edits are carried out, every mark whose name is edited is read as before, but for the new name. -/
def ReadsBack (ks : Keywords) (doc new : String) (edits : List TextEdit) : Prop :=
  ∀ a ∈ ((ofString doc).marks ks).all, ∀ e ∈ edits, a.nameEdit new = some e →
    ∃ a' ∈ ((ofString (TextEdit.applyAll edits doc)).marks ks).all, a.Bears new a'

section

variable {s : Settings} (hs : s.fault? = none) {doc : String} {p : Position} {r : Span}
  (hr : ((ofString doc).marks s.keywords).renameable? p = some r) {new : String} (hnil : new ≠ "")
  (hnew : ∀ c ∈ new.toList, c ≠ '\n' ∧ c ≠ '\r') {order : List TextEdit}
  (horder : order.Perm (((ofString doc).marks s.keywords).rename p new))
include hr hnil hnew horder

/-- Some name is edited, and a line sees the edit of its own name and no other. -/
theorem edits_rename : (∃ a ∈ ((ofString doc).marks s.keywords).all, ∃ e ∈ order, a.nameEdit new = some e) ∧
    (ofString (TextEdit.applyAll order doc)).visits =
      (ofString doc).visits.map (fun l => order.foldl (fun l e => e.onLine l) l) ∧
    ∀ {a e l}, e ∈ order → nameEdit new a = some e → lineMark? s.keywords l = some a →
      order.foldl (fun l e => e.onLine l) l = e.onLine l := by
  obtain ⟨ts, htogether, hedits, hfirst⟩ := Marks.exists_together hr new
  have hts : ts ⊆ (ofString doc).visits.filterMap (lineMark? s.keywords) := fun a ha =>
    List.mem_filterMap.2 (mem_marks.1 (htogether.sublist.subset ha))
  have hlines := (placed_marks s.keywords doc).1.sublist (htogether.sublist.map _)
  obtain ⟨hfits, hapart⟩ :=
    fits_nameEdits_of_unbroken hts hlines (horder.trans hedits) hnil hnew
  refine ⟨?_, TextEdit.visits_applyAll hfits hapart, fun he hname ha =>
    TextEdit.foldl_onLine hapart he (range_nameEdit ha hname).1.symm⟩
  obtain ⟨e, hhead, -⟩ := Option.map_eq_some_iff.1 hfirst
  have he := horder.mem_iff.2 (List.mem_of_head? hhead)
  obtain ⟨a, hmem, hname⟩ := List.mem_filterMap.1 ((horder.trans hedits).mem_iff.1 he)
  exact ⟨a, htogether.sublist.subset hmem, e, he, hname⟩

include hs

/-- The new name of a mark is read back exactly if it has no backslash and no space. -/
theorem exists_bears_iff {a : Mark} (ha : a ∈ ((ofString doc).marks s.keywords).all) {e : TextEdit}
    (he : e ∈ order) (hname : a.nameEdit new = some e) :
    (∃ a' ∈ ((ofString (TextEdit.applyAll order doc)).marks s.keywords).all, a.Bears new a') ↔
      ∀ c ∈ new.toList, c ≠ '\\' ∧ isSpace c = false := by
  obtain ⟨-, hvisits, honline⟩ := edits_rename hr hnil hnew horder
  obtain ⟨l, hl, ha⟩ := mem_marks.1 ha
  have hedited := honline he hname ha
  obtain ⟨n, hn, rfl⟩ := Option.map_eq_some_iff.1 hname
  constructor
  · rintro ⟨a', ha', hbears⟩
    obtain ⟨l', hl', ha'⟩ := mem_marks.1 ha'
    rw [hvisits] at hl'
    obtain ⟨m, hm, rfl⟩ := List.mem_map.1 hl'
    -- the mark that bears the new name is on the edited line
    have hsame : m = l := by
      refine List.inj_on_of_nodup_map
        (List.pairwise_map.2 ((has_ofString doc).pairwise_visits.1.imp Nat.ne_of_lt)) hm hl ?_
      rw [← TextEdit.fst_foldl_onLine order m, ← (stands_of_lineMark? ha').firstLine, hbears.line,
        (stands_of_lineMark? ha).firstLine]
    obtain rfl := hsame
    rw [hedited] at ha'
    exact plain_of_lineMark?_onLine ha hn hnil hnew ha' hbears.name hbears.description
  · intro hplain
    have ha' := lineMark?_onLine (isBlankText_keyword hs) ha hn hnil hplain
    refine ⟨_, mem_marks.2 ⟨_, ?_, ha'⟩, bears_renamed hn ha ha'⟩
    rw [hvisits, ← hedited]
    exact List.mem_map_of_mem hl

end

/-- The new name is read back, whatever the order of the edits, exactly if it has no backslash and no
space. -/
theorem readsBack_iff {s : Settings} (hs : s.fault? = none) {doc : String} {p : Position} {r : Span}
    (hr : ((ofString doc).marks s.keywords).renameable? p = some r) {new : String} (hnil : new ≠ "")
    (hnew : ∀ c ∈ new.toList, c ≠ '\n' ∧ c ≠ '\r') {order : List TextEdit}
    (horder : order.Perm (((ofString doc).marks s.keywords).rename p new)) :
    ReadsBack s.keywords doc new order ↔ ∀ c ∈ new.toList, c ≠ '\\' ∧ isSpace c = false := by
  constructor
  · intro h
    obtain ⟨a, ha, e, he, hname⟩ := (edits_rename hr hnil hnew horder).1
    exact (exists_bears_iff hs hr hnil hnew horder ha he hname).1 (h a ha e he hname)
  · exact fun hplain a ha e he hname => (exists_bears_iff hs hr hnil hnew horder ha he hname).2 hplain

/-- A name with an escaped space gets another one, at both ends of its region. -/
theorem readsBack_iff_escaped :
    let s := Settings.standard
    let doc := "#region a\\ b x\n#endregion a\\ b"
    let marks := (ofString doc).marks s.keywords
    let edits := marks.rename ⟨1, 12⟩ "a-b"
    s.fault? = none ∧ marks.renameable? ⟨1, 12⟩ = some (.ofCoords 1 11 1 15) ∧ "a-b" ≠ "" ∧
      (∀ c ∈ "a-b".toList, c ≠ '\n' ∧ c ≠ '\r') ∧ edits.reverse.Perm edits ∧
      ReadsBack s.keywords doc "a-b" edits.reverse := by
  intro s doc marks edits
  have hs : s.fault? = none := by decide
  have hr : marks.renameable? ⟨1, 12⟩ = some (.ofCoords 1 11 1 15) := by decide +kernel
  have hnew : ∀ c ∈ "a-b".toList, c ≠ '\n' ∧ c ≠ '\r' := by simp
  have horder : edits.reverse.Perm edits := List.reverse_perm edits
  have hplain : ("a-b".toList.all fun c => c ≠ '\\' ∧ isSpace c = false) = true := by decide
  exact ⟨hs, hr, by decide, hnew, horder, (readsBack_iff hs hr (by decide) hnew horder).2
    fun c hc => of_decide_eq_true (List.all_eq_true.1 hplain c hc)⟩

/-- A space in the new name makes its second half a description. -/
theorem not_readsBack_space :
    let s := Settings.standard
    let marks := (ofString "#tag a").marks s.keywords
    let edits := marks.rename ⟨0, 5⟩ "b c"
    s.fault? = none ∧ marks.renameable? ⟨0, 5⟩ = some (.ofCoords 0 5 0 6) ∧
      (∀ c ∈ "b c".toList, c ≠ '\n' ∧ c ≠ '\r') ∧ ¬ ReadsBack s.keywords "#tag a" "b c" edits ∧
      ((ofString (TextEdit.applyAll edits "#tag a")).marks s.keywords).all.map reading =
        [⟨.tag, "#tag", some "b", some "c"⟩] := by
  intro s marks edits
  refine ⟨by decide, by decide +kernel, by simp, fun h => ?_, by decide +kernel⟩
  have hedited : ∃ a ∈ marks.all, ∃ e ∈ edits, a.nameEdit "b c" = some e := by decide +kernel
  have hnone : ∀ a' ∈ ((ofString (TextEdit.applyAll edits "#tag a")).marks s.keywords).all,
      a'.nameText? ≠ some "b c" := by decide +kernel
  obtain ⟨a, ha, e, he, hname⟩ := hedited
  obtain ⟨a', ha', hbears⟩ := h a ha e he hname
  exact hnone a' ha' hbears.name

end TextLines

end SymbolOutline
