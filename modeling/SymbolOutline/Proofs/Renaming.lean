import Mathlib.Data.List.Nodup
import Mathlib.Data.List.Pairwise
import Mathlib.Data.Option.Basic
import SymbolOutline.Proofs.Names

/-
What a rename does to a document (`marks_rename`). The names that change together are those of one tag or of
both ends of one region. Once the edits are carried out, the document has the same marks, but for the new name and
for the columns behind it: regions are paired as before, and the problems are the same.

A new name could lead a closer to another opener. It does not, since no mark of the document had that name: the
two readings pair marks in step (`map_push`), and a closer that used to pass an opener by still does.
-/

namespace SymbolOutline

/-- A region whose ends are changed. -/
def Region.map (f : Mark → Mark) (r : Region) : Region := ⟨f r.opener, f r.closer⟩

/-- A problem of a mark that is changed. -/
def Problem.map (f : Mark → Mark) (p : Problem) : Problem := ⟨p.fault, f p.mark⟩

/-- The marks of a document, each of them changed. -/
def Marks.map (f : Mark → Mark) (s : Marks) : Marks :=
  ⟨s.regions.map (Region.map f), s.tags.map f, s.problems.map (Problem.map f)⟩

/-- The marks of a document up to some point, each of them changed. -/
def Pairing.map (f : Mark → Mark) (p : Pairing) : Pairing :=
  ⟨p.pending.map f, p.regions.map (Region.map f), p.tags.map f, p.unmatched.map f⟩

/-! ## Pairing in step -/

/-- A search finds the same where the members passed by are passed by again, and the member found is found
again. -/
theorem find?_map_of_passes {α : Type} {f : α → α} {p q : α → Bool} {xs : List α}
    (hpass : ∀ x ∈ xs, p x = false → q (f x) = false) (hfind : ∀ x, xs.find? p = some x → q (f x) = true) :
    (xs.map f).find? q = (xs.find? p).map f ∧ (xs.map f).eraseP q = (xs.eraseP p).map f := by
  induction xs with
  | nil => exact ⟨rfl, rfl⟩
  | cons x xs ih =>
    cases hp : p x with
    | true =>
      have hq : q (f x) = true := hfind x (by rw [List.find?_cons, hp])
      simp [hp, hq]
    | false =>
      have hq := hpass x (List.mem_cons_self ..) hp
      have := ih (fun y hy => hpass y (List.mem_cons_of_mem _ hy))
        fun y hy => hfind y (by rw [List.find?_cons, hp]; exact hy)
      simp [hp, hq, this]

namespace Pairing

variable {f : Mark → Mark} {p : Pairing} {a : Mark} {as : List Mark}

theorem pending_push (p : Pairing) (a : Mark) : ∀ o ∈ (p.push a).pending, o ∈ p.pending ∨ o = a := by
  unfold push
  cases a.marker with
  | tag => exact fun o ho => .inl ho
  | opener => exact fun o ho => (List.mem_cons.1 ho).symm
  | closer =>
    simp only
    split
    · exact fun o ho => .inl (List.mem_of_mem_eraseP ho)
    · exact fun o ho => .inl ho

/-- Regions stay, and what a closer adds to them is a pair. -/
theorem regions_push (p : Pairing) (a : Mark) :
    p.regions ⊆ (p.push a).regions ∧
      ∀ r ∈ (p.push a).regions, r ∈ p.regions ∨ Closes r.closer r.opener := by
  unfold push
  cases a.marker with
  | tag => exact ⟨fun _ h => h, fun r hr => .inl hr⟩
  | opener => exact ⟨fun _ h => h, fun r hr => .inl hr⟩
  | closer =>
    simp only
    split
    · next o ho =>
      refine ⟨List.subset_append_left _ _, fun r hr => ?_⟩
      rcases List.mem_append.1 hr with hr | hr
      · exact .inl hr
      · obtain rfl := List.mem_singleton.1 hr
        exact .inr (by simpa using List.find?_some ho)
    · exact ⟨fun _ h => h, fun r hr => .inl hr⟩

theorem regions_foldl_push (p : Pairing) (as : List Mark) :
    p.regions ⊆ (as.foldl push p).regions ∧
      ∀ r ∈ (as.foldl push p).regions, r ∈ p.regions ∨ Closes r.closer r.opener := by
  induction as generalizing p with
  | nil => exact ⟨fun _ h => h, fun r hr => .inl hr⟩
  | cons a as ih =>
    obtain ⟨hstay, hpairs⟩ := regions_push p a
    obtain ⟨hkeep, hmore⟩ := ih (p.push a)
    refine ⟨fun r hr => hkeep (hstay hr), fun r hr => ?_⟩
    rcases hmore r hr with hr | hr
    · exact hpairs r hr
    · exact .inr hr

/-- Marks are changed without a change of who is paired with whom: a closer passes by the openers that it used to
pass by, and what has been paired is still a pair. -/
structure Faithful (f : Mark → Mark) (as : List Mark) (regions : List Region) : Prop where
  marker : ∀ a, (f a).marker = a.marker
  passes : ∀ a ∈ as, ∀ o ∈ as, ¬ Closes a o → ¬ Closes (f a) (f o)
  pairs : ∀ r ∈ regions, Closes (f r.closer) (f r.opener)

/-- The next mark meets the same fate. -/
theorem map_push {regions : List Region} (hf : Faithful f as regions) (ha : a ∈ as)
    (hp : p.pending ⊆ as) (hr : (p.push a).regions ⊆ regions) :
    (p.push a).map f = (p.map f).push (f a) := by
  unfold push at hr ⊢
  rw [hf.marker a]
  generalize a.marker = m at hr ⊢
  cases m with
  | tag => simp [map]
  | opener => simp [map]
  | closer =>
    simp only at hr ⊢
    have hpasses : ∀ o ∈ p.pending, decide (Closes a o) = false → decide (Closes (f a) (f o)) = false :=
      fun o ho h => by simpa using hf.passes a ha o (hp ho) (by simpa using h)
    obtain ⟨hfind, herase⟩ := find?_map_of_passes (q := fun o => decide (Closes (f a) o)) hpasses
      (fun o ho => by
        rw [ho] at hr
        simpa using hf.pairs ⟨o, a⟩ (hr (List.mem_append_right _ (List.mem_singleton_self _))))
    have hpending : (p.map f).pending = p.pending.map f := rfl
    rw [hpending, hfind, herase]
    cases p.pending.find? fun o => Closes a o with
    | none => simp [map]
    | some o => simp [map, Region.map]

theorem map_foldl_push {all : List Mark} (hf : Faithful f all (as.foldl push p).regions)
    (has : as ⊆ all) (hp : p.pending ⊆ all) :
    (as.foldl push p).map f = (as.map f).foldl push (p.map f) := by
  induction as generalizing p with
  | nil => rfl
  | cons a as ih =>
    have ha := has (List.mem_cons_self ..)
    have hpending : (p.push a).pending ⊆ all := fun o ho => by
      rcases pending_push p a o ho with ho | rfl
      · exact hp ho
      · exact ha
    rw [List.foldl_cons, List.map_cons, List.foldl_cons,
      ← map_push hf ha hp (regions_foldl_push (p.push a) as).1]
    exact ih hf (fun b hb => has (List.mem_cons_of_mem _ hb)) hpending

end Pairing

namespace Marks

theorem map_ofList {f : Mark → Mark} {as : List Mark}
    (hf : Pairing.Faithful f as (ofList as).regions) : ofList (as.map f) = (ofList as).map f := by
  have hrun := Pairing.map_foldl_push (p := .start) hf (fun _ h => h) (fun _ h => by cases h)
  have hstart : Pairing.start.map f = .start := rfl
  rw [hstart] at hrun
  unfold ofList
  rw [← hrun]
  simp [Pairing.finish, Pairing.map, map, Problem.map, Function.comp_def]

end Marks

/-! ## Marks whose names change together -/

namespace Mark

/-- The name of a mark is at a position. -/
def NamedAt (a : Mark) (p : Position) : Prop := ∃ n, a.name = some n ∧ n.range.Touches p

/-- The edit that gives a mark another name. -/
def nameEdit (new : String) (a : Mark) : Option TextEdit := a.name.map fun n => ⟨n.range, new⟩

theorem nameText?_renamed (new : String) (a : Mark) :
    (a.renamed new).nameText? = a.nameText?.map fun _ => new := by
  unfold renamed nameText?
  cases h : a.name with
  | none => simp [h]
  | some n => rfl

theorem marker_renamed (new : String) (a : Mark) : (a.renamed new).marker = a.marker := by
  unfold renamed
  cases a.name <;> rfl

theorem tagRenames?_eq_some {a : Mark} {p : Position} {ranges : List Span}
    (h : a.tagRenames? p = some ranges) : a.NamedAt p ∧
      ∀ new, (ranges.map fun range => TextEdit.mk range new).Perm ([a].filterMap (nameEdit new)) := by
  unfold tagRenames? at h
  obtain ⟨range, hrange, hif⟩ := Option.bind_eq_some_iff.1 h
  obtain ⟨n, hn, rfl⟩ := Option.map_eq_some_iff.1 hrange
  obtain ⟨htouch, hranges⟩ := Option.ite_none_right_eq_some.1 hif
  obtain rfl := Option.some.inj hranges
  exact ⟨⟨n, hn, htouch⟩, fun new => by simp [nameEdit, hn]⟩

end Mark

namespace Region

theorem renames?_eq_some {r : Region} {p : Position} {ranges : List Span}
    (h : r.renames? p = some ranges) : (r.opener.NamedAt p ∨ r.closer.NamedAt p) ∧
      ∀ new, (ranges.map fun range => TextEdit.mk range new).Perm
        ([r.opener, r.closer].filterMap (Mark.nameEdit new)) := by
  have htouch : ∀ {a : Mark}, (a.name.map Token.range).any (fun s => s.Touches p) = true →
      a.NamedAt p := by
    intro a ha
    obtain ⟨range, hrange, htouch⟩ := (Option.any_eq_true ..).1 ha
    obtain ⟨n, hn, rfl⟩ := Option.map_eq_some_iff.1 hrange
    exact ⟨n, hn, by simpa using htouch⟩
  have hedits : ∀ new, [r.opener, r.closer].filterMap (Mark.nameEdit new) =
      ((r.opener.name.map Token.range).toList ++ (r.closer.name.map Token.range).toList).map
        fun range => TextEdit.mk range new := by
    intro new
    unfold Mark.nameEdit
    cases ho : r.opener.name <;> cases hc : r.closer.name <;> simp [ho, hc]
  unfold renames? at h
  simp only at h
  split_ifs at h with ho hc
  · obtain rfl := Option.some.inj h
    exact ⟨.inl (htouch ho), fun new => .of_eq (hedits new).symm⟩
  · obtain rfl := Option.some.inj h
    refine ⟨.inr (htouch hc), fun new => ?_⟩
    rw [hedits]
    exact List.perm_append_comm.map _

end Region

namespace Marks

/-- The marks whose names change together when the name at a position changes: a tag, or both ends of a
region. -/
inductive Together (s : Marks) (p : Position) : List Mark → Prop
  | tag {a} : a ∈ s.tags → a.NamedAt p → Together s p [a]
  | region {r} : r ∈ s.regions → r.opener.NamedAt p ∨ r.closer.NamedAt p →
      Together s p [r.opener, r.closer]

variable {s : Marks} {p : Position} {ts : List Mark}

/-- A rename has one edit for each of the names that change together. The first is the one at the position. -/
theorem exists_together {r : Span} (hr : s.renameable? p = some r) (new : String) :
    ∃ ts, Together s p ts ∧ (s.rename p new).Perm (ts.filterMap (Mark.nameEdit new)) ∧
      (s.rename p new).head?.map TextEdit.range = some r := by
  unfold renameable? at hr
  obtain ⟨ranges, hranges, hhead⟩ := Option.bind_eq_some_iff.1 hr
  have hrename : s.rename p new = ranges.map fun range => ⟨range, new⟩ := by
    rw [rename, hranges]
    rfl
  have hfirst : (s.rename p new).head?.map TextEdit.range = some r := by
    rw [hrename, List.head?_map, hhead]
    rfl
  rw [hrename] at hfirst ⊢
  unfold renames? at hranges
  rcases (Option.orElse_eq_some ..).1 hranges with htag | ⟨-, hregion⟩
  · obtain ⟨a, ha, hname⟩ := List.exists_of_findSome?_eq_some htag
    obtain ⟨h, hperm⟩ := Mark.tagRenames?_eq_some hname
    exact ⟨[a], .tag ha h, hperm new, hfirst⟩
  · obtain ⟨region, hmem, hname⟩ := List.exists_of_findSome?_eq_some hregion
    obtain ⟨h, hperm⟩ := Region.renames?_eq_some hname
    exact ⟨_, .region hmem h, hperm new, hfirst⟩

theorem Together.sublist (h : Together s p ts) : ts.Sublist s.all := by
  unfold all
  cases h with
  | tag ha =>
    refine List.singleton_sublist.2 (List.mem_append_right _ (List.mem_append_left _ ha))
  | region hr =>
    refine .trans ?_ (List.sublist_append_left _ _)
    rw [List.flatMap_def]
    exact List.sublist_flatten_of_mem (List.mem_map_of_mem hr)

/-- Names that change together are the same. -/
theorem Together.same (h : Together s p ts) (hpairs : ∀ r ∈ s.regions, Pairing.Closes r.closer r.opener)
    {a b : Mark} (ha : a ∈ ts) (hb : b ∈ ts) {x y : String} (hx : a.nameText? = some x)
    (hy : b.nameText? = some y) : x = y := by
  cases h with
  | tag =>
    obtain rfl := List.mem_singleton.1 ha
    obtain rfl := List.mem_singleton.1 hb
    exact Option.some.inj (hx.symm.trans hy)
  | @region r hr =>
    have hname : ∀ {c : Mark} {z : String}, c ∈ [r.opener, r.closer] → c.nameText? = some z →
        r.opener.nameText? = some z := by
      intro c z hc hz
      rcases List.mem_cons.1 hc with rfl | hc
      · exact hz
      · obtain rfl := List.mem_singleton.1 hc
        rcases hpairs r hr with hnone | heq
        · rw [hz] at hnone
          cases hnone
        · rw [heq, hz]
    exact Option.some.inj ((hname ha hx).symm.trans (hname hb hy))

/-- Both ends of a region change, or neither does. -/
theorem Together.both (h : Together s p ts) (hs : s.all.Nodup) {r : Region} (hr : r ∈ s.regions) :
    r.opener ∈ ts ↔ r.closer ∈ ts := by
  obtain ⟨hregions, -, happart⟩ := List.nodup_append'.1 hs
  cases h with
  | @tag a ha =>
    have hne : ∀ b, b = r.opener ∨ b = r.closer → b ∉ [a] := by
      intro b hb hmem
      obtain rfl := List.mem_singleton.1 hmem
      exact happart (List.mem_flatMap.2 ⟨r, hr, by simpa using hb⟩) (List.mem_append_left _ ha)
    exact iff_of_false (hne _ (.inl rfl)) (hne _ (.inr rfl))
  | @region r' hr' =>
    by_cases heq : r' = r
    · subst heq
      exact iff_of_true (List.mem_cons_self ..) (by simp)
    · have hsymm : Std.Symm (Function.onFun List.Disjoint fun r : Region => [r.opener, r.closer]) :=
        ⟨fun _ _ h _ ha hb => h hb ha⟩
      have hdisjoint := (List.nodup_flatMap.1 hregions).2.forall hr' hr heq
      exact iff_of_false (fun h => hdisjoint h (by simp)) (fun h => hdisjoint h (by simp))

/-- No closer is led to another opener by a name that no mark had. -/
theorem Together.faithful (h : Together s p ts) (hs : s.all.Nodup)
    (hpairs : ∀ r ∈ s.regions, Pairing.Closes r.closer r.opener) {new : String} {as : List Mark}
    (hnew : ∀ a ∈ as, a.nameText? ≠ some new) :
    Pairing.Faithful (fun a => if a ∈ ts then a.renamed new else a) as s.regions where
  marker := fun a => by
    split
    · exact Mark.marker_renamed new a
    · rfl
  passes := by
    intro a ha o ho hno
    unfold Pairing.Closes at hno ⊢
    rw [not_or] at hno ⊢
    obtain ⟨x, hx⟩ := Option.ne_none_iff_exists'.1 hno.1
    by_cases hat : a ∈ ts <;> by_cases hot : o ∈ ts
    · -- names that change are the same, so the opener has none
      have hnone : o.nameText? = .none := by
        by_contra hsome
        obtain ⟨y, hy⟩ := Option.ne_none_iff_exists'.1 hsome
        exact hno.2 (by rw [hx, hy, h.same hpairs hat hot hx hy])
      simp [hat, hot, Mark.nameText?_renamed, hx, hnone]
    · simp only [hat, hot, if_true, if_false, Mark.nameText?_renamed, hx, Option.map_some]
      exact ⟨by simp, hnew o ho⟩
    · simp only [hat, hot, if_true, if_false, Mark.nameText?_renamed]
      refine ⟨hno.1, fun h => hnew a ha ?_⟩
      cases hname : o.nameText? with
      | none =>
        rw [hname, hx] at h
        cases h
      | some y =>
        rw [hname] at h
        exact h.symm
    · simp only [hat, hot, if_false]
      exact hno
  pairs := by
    intro r hr
    have hboth := h.both hs hr
    have hcloses := hpairs r hr
    unfold Pairing.Closes at hcloses ⊢
    by_cases ho : r.opener ∈ ts
    · simp only [ho, hboth.1 ho, if_true, Mark.nameText?_renamed]
      rcases hcloses with h | h
      · simp [h]
      · simp [h]
    · simp only [ho, mt hboth.2 ho, if_false]
      exact hcloses

end Marks

/-! ## Documents -/

/-- An edit is at no line but its own. -/
theorem TextEdit.Fits.line_eq {e : TextEdit} {doc : String} (h : e.Fits doc) {q : Position}
    (hq : e.range.Touches q) : e.range.firstLine = q.line :=
  Nat.le_antisymm (Position.line_le hq.1) (h.oneLine ▸ Position.line_le hq.2)

namespace Mark

variable {ks : Keywords} {a : Mark} {l : Nat × String} {e : TextEdit} {new : String}

/-- An edit that gives a mark another name stays on the line of the mark. -/
theorem range_nameEdit (ha : lineMark? ks l = some a) (he : a.nameEdit new = some e) :
    e.range.firstLine = l.1 ∧ e.range.lastLine = l.1 ∧ e.range.stop.column ≤ l.2.toList.length := by
  have hstands := stands_of_lineMark? ha
  obtain ⟨n, hn, rfl⟩ := Option.map_eq_some_iff.1 he
  have hpart : n ∈ a.parts := by simp [parts, hn]
  exact ⟨(hstands.line n hpart).1, (hstands.line n hpart).2, hstands.inside n hpart⟩

/-- A line sees an edit exactly if its mark is one of those that get another name. -/
theorem lineMark?_foldl_onLine {ls : List (Nat × String)} {ts : List Mark} {es : List TextEdit}
    (hks : ∀ e ∈ ks.entries, Text.isBlankText e.2 = false)
    (hls : ls.Pairwise fun l m => l.1 < m.1) (hts : ts ⊆ ls.filterMap (lineMark? ks))
    (hes : ∀ e, e ∈ es ↔ e ∈ ts.filterMap (nameEdit new))
    (hne : es.Pairwise fun d e => d.range.firstLine ≠ e.range.firstLine) (hnil : new ≠ "")
    (hnew : ∀ c ∈ new.toList, c ≠ '\\' ∧ isSpace c = false) (hl : l ∈ ls) :
    lineMark? ks (es.foldl (fun l e => e.onLine l) l) =
      (lineMark? ks l).map fun a => if a ∈ ts then a.renamed new else a := by
  -- an edit on the line is about the mark of the line
  have hmark : ∀ e ∈ es, l.1 = e.range.firstLine → ∃ a ∈ ts, lineMark? ks l = some a ∧
      a.nameEdit new = some e := by
    intro e he hline
    obtain ⟨a, ha, hedit⟩ := List.mem_filterMap.1 ((hes e).1 he)
    obtain ⟨m, hm, hmark⟩ := List.mem_filterMap.1 (hts ha)
    have hsame : l = m := by
      refine List.inj_on_of_nodup_map ?_ hl hm (hline.trans (range_nameEdit hmark hedit).1)
      exact List.pairwise_map.2 (hls.imp fun h => Nat.ne_of_lt h)
    exact ⟨a, ha, hsame ▸ hmark, hedit⟩
  by_cases hedit : ∃ a ∈ ts, lineMark? ks l = some a ∧ ∃ n, a.name = some n
  · obtain ⟨a, ha, hmarked, n, hn⟩ := hedit
    have he : (⟨n.range, new⟩ : TextEdit) ∈ es :=
      (hes _).2 (List.mem_filterMap.2 ⟨a, ha, by simp [nameEdit, hn]⟩)
    have hedit : a.nameEdit new = some ⟨n.range, new⟩ := by rw [nameEdit, hn]; rfl
    have hline := range_nameEdit hmarked hedit
    rw [TextEdit.foldl_onLine hne he hline.1.symm, lineMark?_onLine hks hmarked hn hnil hnew, hmarked,
      Option.map_some, if_pos ha]
  · rw [TextEdit.foldl_onLine_of_ne fun e he hline => ?_]
    · cases hmarked : lineMark? ks l with
      | none => rfl
      | some a =>
        rw [Option.map_some]
        split
        · next ha =>
          -- a mark without a name stays as it is
          have hn : a.name = none := by
            by_contra h
            exact hedit ⟨a, ha, hmarked, Option.ne_none_iff_exists'.1 h⟩
          simp [renamed, hn]
        · rfl
    · obtain ⟨a, ha, hmarked, hname⟩ := hmark e he hline
      obtain ⟨n, hn, -⟩ := Option.map_eq_some_iff.1 hname
      exact hedit ⟨a, ha, hmarked, n, hn⟩

end Mark

namespace TextLines

theorem isBlankText_keyword {s : Settings} (hs : s.fault? = none) :
    ∀ e ∈ s.keywords.entries, Text.isBlankText e.2 = false := by
  rintro ⟨m, k⟩ he
  obtain ⟨rfl, hk⟩ := Keywords.mem_entries.1 he
  obtain ⟨c, hc⟩ := List.exists_mem_of_ne_nil _ (mt String.toList_eq_nil_iff.1 hk)
  exact List.all_eq_false.2 ⟨c, hc, by simp [(Settings.keyword_of_fault? hs m).2 c hc]⟩

/-- The edit of a mark's name fits the document that the mark is read from. -/
theorem fits_nameEdit {ks : Keywords} {doc new : String} {a : Mark} {e : TextEdit}
    (ha : a ∈ (ofString doc).visits.filterMap (Mark.lineMark? ks)) (he : a.nameEdit new = some e)
    (hnil : new ≠ "") (hnew : ∀ c ∈ new.toList, c ≠ '\n' ∧ c ≠ '\r') :
    e.Fits doc ∧ e.range.firstLine = a.range.firstLine := by
  obtain ⟨l, hl, hmark⟩ := List.mem_filterMap.1 ha
  obtain ⟨hfirst, hlast, hstop⟩ := Mark.range_nameEdit hmark he
  have htext : e.newText = new := by
    obtain ⟨n, -, rfl⟩ := Option.map_eq_some_iff.1 he
    rfl
  refine ⟨⟨hlast.trans hfirst.symm, ⟨l.2, hfirst ▸ hl, hstop⟩, htext ▸ hnil,
    htext ▸ fun h => (hnew _ h).1 rfl, htext ▸ fun h => (hnew _ h).2 rfl⟩, ?_⟩
  rw [hfirst, (Mark.stands_of_lineMark? hmark).firstLine]

/-- The edits of names that are on lines of their own all fit, and no two of them are on the same line. -/
theorem fits_nameEdits_of_unbroken {ks : Keywords} {doc new : String} {ts : List Mark} {es : List TextEdit}
    (hts : ts ⊆ (ofString doc).visits.filterMap (Mark.lineMark? ks))
    (hlines : (ts.map fun a => a.range.firstLine).Nodup)
    (hes : es.Perm (ts.filterMap (Mark.nameEdit new))) (hnil : new ≠ "")
    (hnew : ∀ c ∈ new.toList, c ≠ '\n' ∧ c ≠ '\r') :
    (∀ e ∈ es, e.Fits doc) ∧ es.Pairwise fun d e => d.range.firstLine ≠ e.range.firstLine := by
  constructor
  · intro e he
    obtain ⟨a, ha, hname⟩ := List.mem_filterMap.1 (hes.mem_iff.1 he)
    exact (fits_nameEdit (hts ha) hname hnil hnew).1
  · refine (hes.pairwise_iff fun h => Ne.symm h).2 (List.pairwise_filterMap.2 ?_)
    refine (List.pairwise_map.1 hlines).imp_of_mem fun {a b} ha hb hne d hd e he => ?_
    rwa [(fits_nameEdit (hts ha) hd hnil hnew).2, (fits_nameEdit (hts hb) he hnil hnew).2]

theorem fits_nameEdits {ks : Keywords} {doc new : String} {ts : List Mark} {es : List TextEdit}
    (hts : ts ⊆ (ofString doc).visits.filterMap (Mark.lineMark? ks))
    (hlines : (ts.map fun a => a.range.firstLine).Nodup)
    (hes : es.Perm (ts.filterMap (Mark.nameEdit new))) (hnil : new ≠ "")
    (hnew : ∀ c ∈ new.toList, c ≠ '\\' ∧ Mark.isSpace c = false) :
    (∀ e ∈ es, e.Fits doc) ∧ es.Pairwise fun d e => d.range.firstLine ≠ e.range.firstLine := by
  refine fits_nameEdits_of_unbroken hts hlines hes hnil fun c hc => ?_
  constructor
  · rintro rfl
    cases (hnew _ hc).2
  · rintro rfl
    cases (hnew _ hc).2

/-- A rename changes the names that it is about, and no other mark of the document. -/
theorem marks_rename {s : Settings} (hs : s.fault? = none) {doc : String} {p : Position} {r : Span}
    (hr : ((ofString doc).marks s.keywords).renameable? p = some r) {new : String} (hnil : new ≠ "")
    (hnew : ∀ c ∈ new.toList, c ≠ '\\' ∧ Mark.isSpace c = false)
    (hfresh : ∀ a ∈ ((ofString doc).marks s.keywords).all, a.nameText? ≠ some new) :
    let marks := (ofString doc).marks s.keywords
    let edits := marks.rename p new
    ∃ ts, marks.Together p ts ∧ edits.Perm (ts.filterMap (Mark.nameEdit new)) ∧
      edits.head?.map TextEdit.range = some r ∧
      (edits.Pairwise fun d e => ∀ q, ¬ (d.range.Touches q ∧ e.range.Touches q)) ∧
      ∀ order, order.Perm edits →
        (ofString (TextEdit.applyAll order doc)).marks s.keywords =
          marks.map fun a => if a ∈ ts then a.renamed new else a := by
  have hmarks : ∀ text, (ofString text).marks s.keywords =
      .ofList ((ofString text).visits.filterMap (Mark.lineMark? s.keywords)) :=
    fun text => congrArg Marks.ofList (Mark.readLines_eq s.keywords 0 _)
  have hpairwise := (readLines_ofString s.keywords doc).1
  rw [show Mark.readLines (.new s.keywords) (ofString doc).visits =
    (ofString doc).visits.filterMap (Mark.lineMark? s.keywords) from Mark.readLines_eq s.keywords 0 _]
    at hpairwise
  obtain ⟨ts, htogether, hedits, hfirst⟩ := Marks.exists_together hr new
  obtain ⟨hperm, -⟩ := Marks.all_ofList hpairwise
  rw [← hmarks] at hperm
  -- the marks that change, and their edits, are on lines of their own
  have hlines : (((ofString doc).marks s.keywords).all.map fun a => a.range.firstLine).Nodup :=
    (hperm.map _).nodup_iff.2 (List.pairwise_map.2 (hpairwise.imp fun h => Nat.ne_of_lt h))
  have hts : ts ⊆ (ofString doc).visits.filterMap (Mark.lineMark? s.keywords) :=
    fun a ha => hperm.mem_iff.1 (htogether.sublist.subset ha)
  obtain ⟨hfits, hapart⟩ :=
    fits_nameEdits hts (hlines.sublist (htogether.sublist.map _)) hedits hnil hnew
  refine ⟨ts, htogether, hedits, hfirst, ?_, fun order horder => ?_⟩
  · refine hapart.imp_of_mem fun hd he hne q hq => hne ?_
    rw [(hfits _ hd).line_eq hq.1, (hfits _ he).line_eq hq.2]
  · have happart := (horder.pairwise_iff fun h => Ne.symm h).2 hapart
    have hline : ∀ l ∈ (ofString doc).visits, Mark.lineMark? s.keywords
        (order.foldl (fun l e => e.onLine l) l) = (Mark.lineMark? s.keywords l).map
          fun a => if a ∈ ts then a.renamed new else a := fun l hl =>
      Mark.lineMark?_foldl_onLine (isBlankText_keyword hs) (has_ofString doc).pairwise_visits.1 hts
        (fun e => (horder.trans hedits).mem_iff) happart hnil hnew hl
    rw [hmarks, TextEdit.visits_applyAll (fun e he => hfits e (horder.mem_iff.1 he)) happart,
      List.filterMap_map, hmarks, ← Marks.map_ofList, List.map_filterMap]
    · exact congrArg Marks.ofList (List.filterMap_congr hline)
    · rw [← hmarks]
      have hpairs : ∀ r ∈ ((ofString doc).marks s.keywords).regions,
          Pairing.Closes r.closer r.opener := fun r hr =>
        ((Pairing.regions_foldl_push .start _).2 r hr).resolve_left (by simp [Pairing.start])
      exact htogether.faithful (.of_map _ hlines) hpairs fun a ha => hfresh a (hperm.mem_iff.2 ha)

/-- Renamed from its closer, a region changes at both ends, around another region that is never closed. -/
theorem marks_rename_from_closer :
    let s := Settings.standard
    let doc := "#region a x\n#region b\n#endregion a\n#tag a"
    let marks := (ofString doc).marks s.keywords
    let edits := marks.rename ⟨2, 12⟩ "long"
    s.fault? = none ∧ marks.renameable? ⟨2, 12⟩ = some (.ofCoords 2 11 2 12) ∧ "long" ≠ "" ∧
      (∀ c ∈ "long".toList, c ≠ '\\' ∧ Mark.isSpace c = false) ∧
      (∀ a ∈ marks.all, a.nameText? ≠ some "long") ∧
      TextEdit.applyAll edits doc = "#region long x\n#region b\n#endregion long\n#tag a" ∧
      ∃ ts, marks.Together ⟨2, 12⟩ ts ∧
        (ofString (TextEdit.applyAll edits doc)).marks s.keywords =
          marks.map fun a => if a ∈ ts then a.renamed "long" else a := by
  intro s doc marks edits
  have hs : s.fault? = none := by decide
  have hr : marks.renameable? ⟨2, 12⟩ = some (.ofCoords 2 11 2 12) := by decide +kernel
  have hplain : ("long".toList.all fun c => c ≠ '\\' ∧ Mark.isSpace c = false) = true := by decide
  have hnew : ∀ c ∈ "long".toList, c ≠ '\\' ∧ Mark.isSpace c = false :=
    fun c hc => of_decide_eq_true (List.all_eq_true.1 hplain c hc)
  have hfresh : ∀ a ∈ marks.all, a.nameText? ≠ some "long" := by decide +kernel
  obtain ⟨ts, htogether, -, -, -, h⟩ := marks_rename hs hr (by decide) hnew hfresh
  exact ⟨hs, hr, by decide, hnew, hfresh, by decide +kernel, ts, htogether, h edits (.refl _)⟩

end TextLines

end SymbolOutline
