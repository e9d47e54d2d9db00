import SymbolOutline.Proofs.Grammar
import SymbolOutline.Settings

/-
Marks written out and read back (`reading_written_iff`).

A keyword stands in a line as it is; a name and a description have a backslash before each character
that would not stand for itself. Settings that are fit for use keep keywords apart and free of blanks,
but not free of backslashes.
-/

namespace SymbolOutline

/-! ## Settings fit for use -/

/-- The keyword of a marker. -/
def Keywords.keyword (ks : Keywords) : Marker → String
  | .opener => ks.opener
  | .closer => ks.closer
  | .tag => ks.tag

theorem Keywords.mem_entries {ks : Keywords} {m : Marker} {k : String} :
    (m, k) ∈ ks.entries ↔ k = ks.keyword m ∧ k ≠ "" := by
  cases m <;> simp [entries, keyword, List.mem_filter]

namespace Settings

theorem keywordFault?_eq_none {setting keyword : String} :
    keywordFault? setting keyword = none ↔
      keyword ≠ "" ∧ ∀ c ∈ keyword.toList, Text.isBlank c = false := by
  unfold keywordFault? Text.isBlankText
  constructor
  · intro h
    split_ifs at h with hb hc
    refine ⟨?_, by simpa using hc⟩
    rintro rfl
    simp at hb
  · rintro ⟨hne, hc⟩
    obtain ⟨c, hmem⟩ := List.exists_mem_of_ne_nil keyword.toList (by simpa using hne)
    have hb : ¬ keyword.toList.all Text.isBlank = true := fun h => by
      simpa [hc c hmem] using List.all_eq_true.1 h c hmem
    rw [if_neg hb, if_neg (by simpa using hc)]

theorem clash?_eq_none {es : List (String × String)} :
    clash? es = none ↔ (es.map Prod.snd).Nodup := by
  induction es with
  | nil => simp [clash?]
  | cons e es ih =>
    obtain ⟨first, keyword⟩ := e
    rw [clash?, List.map_cons, List.nodup_cons, ← ih]
    cases h : es.find? fun e => e.2 = keyword with
    | none =>
      have hout : keyword ∉ es.map Prod.snd := by
        intro hmem
        obtain ⟨e, he, heq⟩ := List.mem_map.1 hmem
        simpa [heq] using List.find?_eq_none.1 h e he
      simp [hout]
    | some e =>
      have hin : keyword ∈ es.map Prod.snd :=
        List.mem_map.2 ⟨e, List.mem_of_find?_eq_some h, by simpa using List.find?_some h⟩
      simp [hin]

theorem fault?_eq_none {s : Settings} :
    s.fault? = none ↔
      (∀ e ∈ s.namedKeywords, e.2 ≠ "" ∧ ∀ c ∈ e.2.toList, Text.isBlank c = false) ∧
        (s.namedKeywords.map Prod.snd).Nodup := by
  unfold fault?
  rw [← clash?_eq_none]
  cases h : s.namedKeywords.findSome? fun e => keywordFault? e.1 e.2 with
  | none =>
    have := List.findSome?_eq_none_iff.1 h
    simp only [keywordFault?_eq_none] at this
    simpa using fun _ => this
  | some f =>
    refine iff_of_false (by simp) fun hall => ?_
    have : ∀ e ∈ s.namedKeywords, keywordFault? e.1 e.2 = none :=
      fun e he => keywordFault?_eq_none.2 (hall.1 e he)
    rw [List.findSome?_eq_none_iff.2 this] at h
    cases h

theorem keyword_of_fault? {s : Settings} (hs : s.fault? = none) (m : Marker) :
    s.keywords.keyword m ≠ "" ∧ ∀ c ∈ (s.keywords.keyword m).toList, Text.isBlank c = false := by
  have := (fault?_eq_none.1 hs).1
  cases m
  · exact this ("regionStart", _) (by simp [namedKeywords, keywords])
  · exact this ("regionEnd", _) (by simp [namedKeywords, keywords])
  · exact this ("tag", _) (by simp [namedKeywords, keywords])

theorem nodup_of_fault? {s : Settings} (hs : s.fault? = none) :
    (s.keywords.entries.map Prod.snd).Nodup :=
  (fault?_eq_none.1 hs).2.sublist (List.filter_sublist.map Prod.snd)

end Settings

namespace Mark

/-! ## Writing -/

/-- A text with a backslash before each character that would not stand for itself. -/
def escape (text : List Char) : List Char :=
  text.flatMap fun c => if c = '\\' ∨ Text.isBlank c then ['\\', c] else [c]

/-- A name and a description, if there is one. -/
def writtenTail (name description : String) : List Char :=
  escape name.toList ++ if description = "" then [] else ' ' :: escape description.toList

/-- A line with a mark. -/
def written (keyword name description : String) : String :=
  String.ofList (keyword.toList ++ ' ' :: writtenTail name description)

/-- The glyphs of an escaped text. -/
def escaped (text : List Char) : List Glyph :=
  text.map fun c => if c = '\\' ∨ Text.isBlank c then .literal c else .plain c

theorem glyphs_plain {c : Char} (hc : c ≠ '\\') (cs : List Char) :
    glyphs (c :: cs) = .plain c :: glyphs cs := by
  cases cs with
  | nil => simp [glyphs, hc]
  | cons d cs => simp [glyphs, hc]

theorem glyphs_literal (c : Char) (cs : List Char) :
    glyphs ('\\' :: c :: cs) = .literal c :: glyphs cs := by
  rw [glyphs, if_pos rfl]

/-- Text without a backslash stands for itself. -/
theorem glyphs_append_of_notMem {cs : List Char} (h : '\\' ∉ cs) (ds : List Char) :
    glyphs (cs ++ ds) = cs.map .plain ++ glyphs ds := by
  induction cs with
  | nil => rfl
  | cons c cs ih =>
    rw [List.mem_cons, not_or] at h
    rw [List.cons_append, glyphs_plain (Ne.symm h.1), ih h.2, List.map_cons, List.cons_append]

theorem glyphs_escape_append (text cs : List Char) :
    glyphs (escape text ++ cs) = escaped text ++ glyphs cs := by
  induction text with
  | nil => rfl
  | cons c text ih =>
    rw [escape, List.flatMap_cons, ← escape, escaped, List.map_cons, ← escaped, List.append_assoc,
      List.cons_append, ← ih]
    by_cases hc : c = '\\' ∨ Text.isBlank c
    · rw [if_pos hc, if_pos hc]
      exact glyphs_literal c _
    · rw [if_neg hc, if_neg hc]
      exact glyphs_plain (fun h => hc (.inl h)) _

theorem textOf_escaped (text : List Char) : textOf (escaped text) = text := by
  induction text with
  | nil => rfl
  | cons c text ih =>
    rw [escaped, List.map_cons, ← escaped]
    split <;> simp [ih]

theorem textOf_map_plain (cs : List Char) : textOf (cs.map .plain) = cs := by
  induction cs with
  | nil => rfl
  | cons c cs ih => simp [ih]

/-- The characters that separate are blank. -/
theorem isSpace_plain_of_isBlank {c : Char} (hc : Text.isBlank c = false) :
    (Glyph.plain c).isSpace = false := by
  by_contra h
  simp only [Glyph.isSpace, Bool.or_eq_true, decide_eq_true_eq, Bool.not_eq_false] at h
  rcases h with ((rfl | rfl) | rfl) | rfl <;> revert hc <;> decide

theorem solid_escaped (text : List Char) : Solid (escaped text) := by
  intro g hg
  obtain ⟨c, -, rfl⟩ := List.mem_map.1 hg
  split
  · rfl
  · next hc => exact isSpace_plain_of_isBlank (by simpa using fun h => hc (.inr h))

theorem solid_map_plain {cs : List Char} (h : ∀ c ∈ cs, Text.isBlank c = false) :
    Solid (cs.map .plain) := by
  intro g hg
  obtain ⟨c, hc, rfl⟩ := List.mem_map.1 hg
  exact isSpace_plain_of_isBlank (h c hc)

theorem glyphs_writtenTail (name description : String) :
    glyphs (writtenTail name description) = escaped name.toList ++
      if description = "" then [] else .plain ' ' :: escaped description.toList := by
  rw [writtenTail, glyphs_escape_append]
  split
  · rfl
  · have := glyphs_escape_append description.toList []
    rw [List.append_nil] at this
    rw [glyphs_plain (by decide), this, glyphs, List.append_nil]

theorem written_line {keyword name description : String}
    (hk : ∀ c ∈ keyword.toList, Text.isBlank c = false)
    (hn : ∀ c ∈ name.toList, c ≠ '\n' ∧ c ≠ '\r')
    (hd : ∀ c ∈ description.toList, c ≠ '\n' ∧ c ≠ '\r') :
    ∀ c ∈ (written keyword name description).toList, c ≠ '\n' ∧ c ≠ '\r' := by
  have mem_escape : ∀ {c : Char} {text : List Char}, c ∈ escape text → c = '\\' ∨ c ∈ text := by
    intro c text h
    obtain ⟨d, hd, hc⟩ := List.mem_flatMap.1 h
    split at hc
    · rcases List.mem_pair.1 hc with rfl | rfl
      · exact .inl rfl
      · exact .inr hd
    · exact .inr (List.mem_singleton.1 hc ▸ hd)
  intro c hc
  simp only [written, writtenTail, String.toList_ofList, List.mem_append, List.mem_cons] at hc
  rcases hc with hc | rfl | hc | hc
  · have := hk c hc
    constructor
    · rintro rfl; revert this; decide
    · rintro rfl; revert this; decide
  · decide
  · rcases mem_escape hc with rfl | hc
    · decide
    · exact hn c hc
  · split at hc
    · cases hc
    · rcases List.mem_cons.1 hc with rfl | hc
      · decide
      · rcases mem_escape hc with rfl | hc
        · decide
        · exact hd c hc

/-! ## Reading -/

/-- The grammar finds in a written line what was written, if the keyword stands for itself. -/
theorem annotates_written {ks : Keywords} {m : Marker} {name description : String}
    (hk : ks.keyword m ≠ "") (hb : ∀ c ∈ (ks.keyword m).toList, Text.isBlank c = false)
    (hslash : '\\' ∉ (ks.keyword m).toList) (hname : name ≠ "") :
    Annotates ks (glyphs (written (ks.keyword m) name description).toList)
      ⟨m, ks.keyword m, some name, if description = "" then none else some description⟩ := by
  have hspace : (Glyph.plain ' ').isSpace = true := rfl
  have hgap : Blank [.plain ' '] := by simp [Blank, hspace]
  have hline : glyphs (written (ks.keyword m) name description).toList =
      (ks.keyword m).toList.map .plain ++ .plain ' ' :: glyphs (writtenTail name description) := by
    rw [written, String.toList_ofList, glyphs_append_of_notMem hslash, glyphs_plain (by decide)]
  have hdecides : Decides ks ((ks.keyword m).toList.map .plain) m (ks.keyword m) := by
    refine ⟨⟨Keywords.mem_entries.2 ⟨rfl, hk⟩, by simp [textOf_map_plain]⟩, ?_⟩
    rintro m' k' ⟨-, hsuffix⟩
    rw [textOf_map_plain] at hsuffix
    rw [← String.length_toList, ← String.length_toList]
    exact hsuffix.length_le
  have hopens := Opens.here (solid_map_plain hb)
    (@atSpace_cons _ (glyphs (writtenTail name description)) hspace) hdecides
  rw [hline]
  refine ⟨_, hopens, ?_⟩
  have hsolid : escaped name.toList ≠ [] := by simpa [escaped] using hname
  rw [glyphs_writtenTail]
  by_cases hd : description = ""
  · have hdescribes : Describes [] none :=
      @Describes.empty [] [] (by simp [Blank]) (by simp [PastSpace]) rfl
    have := @Names.named m _ _ _ _ hgap hsolid (solid_escaped _) atSpace_nil hdescribes
    simpa [textOf_escaped, hd] using this
  · have hdescribes : Describes ([.plain ' '] ++ escaped description.toList) (some description) := by
      have := @Describes.given _ (escaped description.toList) hgap
        (fun g hg => solid_escaped _ g (List.mem_of_mem_head? hg))
        (by rw [textOf_escaped]; simpa using hd)
      simpa [textOf_escaped] using this
    have := @Names.named m _ _ _ _ hgap hsolid (solid_escaped _) (atSpace_cons hspace) hdescribes
    simpa [textOf_escaped, hd] using this

/-! ## Backslashes of a keyword -/

/-- A backslash in front of the name is not read as such, or stands for the one behind it. -/
theorem count_glyphs_le (k cs : List Char) :
    (textOf (glyphs (k ++ ' ' :: cs))).count '\\' + min 1 (k.count '\\') ≤
      k.count '\\' + (textOf (glyphs cs)).count '\\' := by
  fun_induction glyphs k with
  | case1 => simp [glyphs_plain]
  | case2 =>
    have hone : ['\\'].count '\\' = 1 := rfl
    rw [List.cons_append, List.nil_append, glyphs_literal, textOf_literal,
      List.count_cons_of_ne (by decide), hone]
    omega
  | case3 c h => simp [glyphs_plain h, glyphs_plain, h]
  | case4 d k ih =>
    rw [List.cons_append, List.cons_append, glyphs_literal, textOf_literal]
    simp only [List.count_cons]
    split <;> simp <;> omega
  | case5 c d k h ih =>
    rw [List.cons_append, glyphs_plain h, textOf_plain, List.count_cons_of_ne h,
      List.count_cons_of_ne h]
    exact ih

theorem count_textOf_written_le (keyword name description : String) :
    (textOf (glyphs (written keyword name description).toList)).count '\\' +
      min 1 (keyword.toList.count '\\') ≤
        keyword.toList.count '\\' + (name.toList.count '\\' + description.toList.count '\\') := by
  have htail : (textOf (glyphs (writtenTail name description))).count '\\' =
      name.toList.count '\\' + description.toList.count '\\' := by
    rw [glyphs_writtenTail, textOf_append, textOf_escaped, List.count_append]
    by_cases hd : description = ""
    · simp [hd]
    · simp [hd, textOf_escaped]
  rw [written, String.toList_ofList, ← htail]
  exact count_glyphs_le keyword.toList (writtenTail name description)

theorem Opens.count_le {ks : Keywords} {gs rest : List Glyph} {m : Marker} {k : String}
    (h : Opens ks gs m k rest) :
    k.toList.count '\\' + (textOf rest).count '\\' ≤ (textOf gs).count '\\' := by
  induction h with
  | @here word rest m k _ _ hdec =>
    have := hdec.1.2.sublist.count_le '\\'
    rw [textOf_append, List.count_append]
    omega
  | @behind word space more m k rest _ _ _ _ ih =>
    rw [List.append_cons, textOf_append, List.count_append]
    omega

theorem Describes.count_le {gs : List Glyph} {d : Option String} (h : Describes gs d) :
    (d.getD "").toList.count '\\' ≤ (textOf gs).count '\\' := by
  cases h with
  | empty => simp
  | given => simp [textOf_append]

theorem Names.count_le {m : Marker} {gs : List Glyph} {n : String} {d : Option String}
    (h : Names m gs (some n) d) :
    n.toList.count '\\' + (d.getD "").toList.count '\\' ≤ (textOf gs).count '\\' := by
  cases h with
  | @named _ gap name rest _ _ _ _ _ hd =>
    have := hd.count_le
    rw [textOf_append, textOf_append, List.count_append, List.count_append, String.toList_ofList]
    omega

theorem notMem_of_annotates {ks : Keywords} {m : Marker} {keyword name description : String}
    (h : Annotates ks (glyphs (written keyword name description).toList)
      ⟨m, keyword, some name, if description = "" then none else some description⟩) :
    '\\' ∉ keyword.toList := by
  obtain ⟨rest, hopens, hnames⟩ := h
  have hkeyword := hopens.count_le
  have hrest := hnames.count_le
  have hwritten := count_textOf_written_le keyword name description
  have hdescription : ((if description = "" then none else some description).getD "") =
      description := by
    split <;> simp_all
  rw [hdescription] at hrest
  rw [← List.count_eq_zero]
  simp only at hkeyword
  omega

/-! ## Lines of fit settings -/

/-- A written line is read back exactly if the keyword has no backslash. -/
theorem reading_written_iff {s : Settings} (hs : s.fault? = none) (m : Marker)
    {name description : String} (hname : name ≠ "") (hn : ∀ c ∈ name.toList, c ≠ '\n' ∧ c ≠ '\r')
    (hd : ∀ c ∈ description.toList, c ≠ '\n' ∧ c ≠ '\r') (line : Nat) :
    ((Reader.new s.keywords).read (written (s.keywords.keyword m) name description) line).finish.1.map
        reading =
      some ⟨m, s.keywords.keyword m, some name,
        if description = "" then none else some description⟩ ↔
      '\\' ∉ (s.keywords.keyword m).toList := by
  obtain ⟨hk, hb⟩ := Settings.keyword_of_fault? hs m
  have hline : ∀ c ∈ (written (s.keywords.keyword m) name description).toList, endsLine c = false :=
    fun c hc => by simpa [endsLine] using written_line hb hn hd c hc
  have hwritten := written_glyphs hline
  have hread := @outcome_leading _ s.keywords [] [] line 0 (Settings.nodup_of_fault? hs) hwritten
    rfl (by simp [Solid])
  rw [List.nil_append] at hread
  rw [reading_finish]
  exact (hread _).trans ⟨notMem_of_annotates, fun h => annotates_written hk hb h hname⟩

/-- The keyword ends with that of another marker, and there are blanks and backslashes to escape. -/
theorem reading_written_iff_suffix :
    let s := { Settings.standard with regionStart := "region", regionEnd := "endregion" }
    s.fault? = none ∧ "na me\\" ≠ "" ∧ (∀ c ∈ "na me\\".toList, c ≠ '\n' ∧ c ≠ '\r') ∧
      (∀ c ∈ " #tag\t".toList, c ≠ '\n' ∧ c ≠ '\r') ∧
      ((Reader.new s.keywords).read (written "endregion" "na me\\" " #tag\t") 0).finish.1.map reading =
        some ⟨.closer, "endregion", some "na me\\", some " #tag\t"⟩ :=
  ⟨by decide, by decide, by simp, by simp,
    (reading_written_iff (by decide) .closer (by decide) (by simp) (by simp) 0).2 (by decide)⟩

/-- A keyword with a backslash is let through, and the line that is written with it has no mark. -/
theorem reading_written_backslash :
    let s := { Settings.standard with tag := "\\tag" }
    s.fault? = none ∧
      ((Reader.new s.keywords).read (written "\\tag" "a" "") 0).finish.1 = none := by
  decide

end Mark

end SymbolOutline
