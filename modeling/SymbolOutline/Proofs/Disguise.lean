import SymbolOutline.Proofs.Descent
import SymbolOutline.Proofs.Names
import SymbolOutline.Proofs.Partners

/-
Marks as entries of an outline (`perm_contents`). Every region and every tag of a text is shown by one
entry, and nothing else is shown: an entry of the kind, with the name and the description of the mark,
whatever they say.

A mark travels as a symbol in disguise, and a mark without a name has no symbol. But only a closer may do
without a name, and a region is named by its opener, so none is lost.
-/

namespace SymbolOutline

open Rose Forest

/-! ## Marks with names -/

namespace Mark

/-- Only a closer does without a name. -/
def Named (a : Mark) : Prop := a.marker = .closer ∨ a.name.isSome

namespace Stage

/-- A mark that has been read is named. -/
def Named : Stage → Prop
  | complete a => a.Named
  | _ => True

theorem named_spaceAfterKeyword (m : Marker) (k : Token) (c : Char) : (spaceAfterKeyword m k c).Named := by
  unfold spaceAfterKeyword
  split
  · split
    · next hm => exact .inl hm
    · trivial
  · trivial

theorem named_spaceAfterName (m : Marker) (k n : Token) (c : Char) : (spaceAfterName m k n c).Named := by
  unfold spaceAfterName
  split
  · exact .inr rfl
  · trivial

theorem named_spaceInLeading (ks : Keywords) (line column : Nat) (word : List Placed) (c : Char) :
    (spaceInLeading ks line column word c).Named := by
  unfold spaceInLeading
  cases keyword? ks word with
  | none => trivial
  | some e => exact named_spaceAfterKeyword ..

theorem named_step (ks : Keywords) (line column : Nat) (c : Char) {s : Stage} (h : s.Named) :
    (s.step ks line column c).Named := by
  cases s with
  | complete a => exact h
  | nameless => trivial
  | leading word escaping =>
    rw [step]
    split
    · trivial
    · split
      · trivial
      · split
        · exact named_spaceInLeading ..
        · trivial
  | afterKeyword m k =>
    rw [step]
    split
    · exact named_spaceAfterKeyword ..
    · split <;> trivial
  | inName m k first word escaping =>
    rw [step]
    split
    · trivial
    · split
      · trivial
      · split
        · exact named_spaceAfterName ..
        · trivial
  | afterName m k n =>
    rw [step]
    split
    · exact named_spaceAfterName ..
    · split <;> trivial
  | inDescription m k n first word escaping =>
    rw [step]
    split
    · exact .inr rfl
    · split
      · trivial
      · split <;> trivial

theorem named_readAll (ks : Keywords) (line column : Nat) (cs : List Char) {s : Stage} (h : s.Named) :
    (readAll ks line column cs s).Named := by
  induction cs generalizing column s with
  | nil => exact h
  | cons c cs ih => exact ih (column + 1) (named_step ks line column c h)

end Stage

theorem named_of_mem_readLines {ks : Keywords} {ls : List (Nat × String)} {a : Mark}
    (h : a ∈ readLines (.new ks) ls) : a.Named := by
  have hread : readLines (.new ks) ls = ls.filterMap (lineMark? ks) := readLines_eq ks 0 ls
  rw [hread] at h
  obtain ⟨l, -, ha⟩ := List.mem_filterMap.1 h
  have := Stage.named_readAll ks l.1 0 (l.2.toList ++ ['\n']) (s := .start) trivial
  rwa [(lineMark?_eq_some.1 ha).2] at this

end Mark

namespace Marks

open Text

theorem mem_of_mem_numbered {as : List Mark} {c : Nat × Mark} (h : c ∈ numbered as) : c.2 ∈ as :=
  List.mem_of_getElem? (mem_numbered.1 h)

theorem mem_of_mem_regions {as : List Mark} {r : Region} (h : r ∈ (ofList as).regions) :
    r.opener ∈ as ∧ r.opener.marker = .opener := by
  obtain ⟨f, hstate, hf⟩ := Pairing.settles_foldl as
  rw [ofList, hstate, f.finish_pairing] at h
  obtain ⟨⟨o, c⟩, hpair, rfl⟩ := List.mem_map.1 h
  obtain ⟨-, -, hawaits, -⟩ := (hf.paired o c).1 hpair
  exact ⟨mem_of_mem_numbered hawaits.mem, hawaits.opener⟩

theorem mem_of_mem_tags {as : List Mark} {a : Mark} (h : a ∈ (ofList as).tags) :
    a ∈ as ∧ a.marker = .tag := by
  obtain ⟨f, hstate, hf⟩ := Pairing.settles_foldl as
  rw [ofList, hstate, f.finish_pairing] at h
  obtain ⟨t, ht, rfl⟩ := List.mem_map.1 h
  refine ⟨mem_of_mem_numbered (hf.mem.1 ?_), hf.tag t ht⟩
  exact List.mem_append_right _ (List.mem_append_left _ ht)

end Marks

/-! ## What entries say -/

/-- What an entry says, and where it stands. -/
def Item.content (i : Item) : Key × String × Span × Span := (i.key, i.detail, i.range, i.selection)

/-- What the entry of a mark says. A missing description is empty. -/
def Mark.content? (a : Mark) (kind : Kind) (range : Span) : Option (Key × String × Span × Span) :=
  a.name.map fun name =>
    (⟨kind, name.text⟩, (a.description.map Token.text).getD "", range, name.range)

/-- The entry of a symbol. -/
def Symbol.entry (s : Symbol) : Item :=
  .fresh ⟨s.unmask.1, s.key.name⟩ s.unmask.2 s.range s.selection

theorem Symbol.unmask_mask_region (name : String) (d : Option String) (range selection : Span) :
    (mask regionMarker name d range selection).unmask = (.region, d.getD "") :=
  means_iff.1 (.region rfl rfl)

theorem Symbol.unmask_mask_tag (name : String) (d : Option String) (range selection : Span) :
    (mask tagMarker name d range selection).unmask = (.tag, d.getD "") :=
  means_iff.1 (.tag rfl rfl)

theorem Region.content_symbol? (r : Region) :
    r.symbol?.map (fun s => s.entry.content) = r.opener.content? .region r.range := by
  unfold symbol? Mark.content?
  rw [Option.map_map]
  congr 1
  funext name
  simp only [Function.comp_apply, Symbol.entry, Symbol.unmask_mask_region]
  rfl

theorem Mark.content_tagSymbol? (a : Mark) :
    a.tagSymbol?.map (fun s => s.entry.content) = a.content? .tag a.range := by
  unfold tagSymbol? content?
  rw [Option.map_map]
  congr 1
  funext name
  simp only [Function.comp_apply, Symbol.entry, Symbol.unmask_mask_tag]
  rfl

/-- Where all have an outcome, none is passed over. -/
theorem map_some_filterMap {α β γ : Type} {f : α → Option β} {g : β → γ} {xs : List α}
    (h : ∀ x ∈ xs, (f x).isSome) :
    (xs.filterMap f).map (fun y => some (g y)) = xs.map fun x => (f x).map g := by
  induction xs with
  | nil => rfl
  | cons x xs ih =>
    obtain ⟨y, hy⟩ := Option.isSome_iff_exists.1 (h x (List.mem_cons_self ..))
    rw [List.filterMap_cons_some hy, List.map_cons, List.map_cons, hy,
      ih fun z hz => h z (List.mem_cons_of_mem _ hz)]
    rfl

namespace Outline

/-- Where no kind is hidden, there is an entry for every symbol. -/
theorem valuesAll_visible_nil (ts : Forest Symbol) :
    valuesAll (visible [] ts) = (valuesAll ts).map Symbol.entry := by
  induction ts using induct_forest with
  | nil => rfl
  | cons s cs ts ihc ih =>
    rw [visible, ofSymbol, valuesAll_append, ih, valuesAll_cons, List.map_cons, List.map_append, ← ihc]
    simp only [List.not_mem_nil, if_false]
    rw [valuesAll_cons, valuesAll_nil, List.append_nil]
    rfl

/-- Writing paths does not change what entries say. -/
theorem map_content_locateAll (base : Path) (ts : Forest Item) :
    (valuesAll (locateAll base ts)).map Item.content = (valuesAll ts).map Item.content := by
  induction ts using induct_forest generalizing base with
  | nil => rfl
  | cons i cs ts ihc ih =>
    rw [locateAll_cons, valuesAll_cons, valuesAll_cons, List.map_cons, List.map_append, List.map_cons,
      List.map_append, ihc, ih]
    rfl

/-- The entries of an outline without hidden kinds say what the symbols stand for. -/
theorem perm_contents_ofSymbols (symbols : Forest Symbol) :
    ((ofSymbols [] symbols).items.map Item.content).Perm
      ((valuesAll symbols).map fun s => s.entry.content) := by
  have hperm := (perm_nest (visible [] symbols)).map Item.content
  rw [valuesAll_visible_nil, List.map_map] at hperm
  rw [items, ofSymbols, ofForest, map_content_locateAll]
  exact hperm

end Outline

namespace TextLines

/-- The outline of the marks of a text has one entry for each region, with the name and the description of
the opener, and one for each tag, and no others. -/
theorem perm_contents (text : TextLines) (ks : Keywords) :
    ((Outline.ofSymbols [] (text.marks ks).symbols).items.map fun i => some i.content).Perm
      ((text.marks ks).regions.map
          (fun r => r.opener.content? .region (r.opener.range.union r.closer.range)) ++
        (text.marks ks).tags.map fun a => a.content? .tag a.range) := by
  have hregions : ∀ r ∈ (text.marks ks).regions, r.symbol?.isSome := by
    intro r hr
    obtain ⟨hmem, hmarker⟩ := Marks.mem_of_mem_regions hr
    have hname := (Mark.named_of_mem_readLines hmem).resolve_left (by simp [hmarker])
    rwa [Region.symbol?, Option.isSome_map]
  have htags : ∀ a ∈ (text.marks ks).tags, a.tagSymbol?.isSome := by
    intro a ha
    obtain ⟨hmem, hmarker⟩ := Marks.mem_of_mem_tags ha
    have hname := (Mark.named_of_mem_readLines hmem).resolve_left (by simp [hmarker])
    rwa [Mark.tagSymbol?, Option.isSome_map]
  -- the symbols of the regions come first, and then those of the tags
  have hsymbols : (valuesAll (text.marks ks).symbols).map (fun s => some s.entry.content) =
      (text.marks ks).regions.map (fun r => r.opener.content? .region r.range) ++
        (text.marks ks).tags.map fun a => a.content? .tag a.range := by
    rw [Marks.symbols, valuesAll_map_leaf, List.map_append, map_some_filterMap hregions,
      map_some_filterMap htags]
    simp only [Region.content_symbol?, Mark.content_tagSymbol?]
  have hperm := (Outline.perm_contents_ofSymbols (text.marks ks).symbols).map some
  rw [List.map_map, List.map_map] at hperm
  exact hperm.trans (.of_eq hsymbols)

end TextLines

end SymbolOutline
