import SymbolOutline.Proofs.PostOrder
import SymbolOutline.Proofs.Tiebreaks

/-
The innermost entry around a stretch of lines, found in two ways. A query goes down from the roots and
takes it on the way back up, unless an entry starts within the lines. A diagnostic is put down next to the
one before it, and goes down from there. Where entries keep to the lines of those above them and siblings
share no line (`Laminar`), the entries around some lines are one above the other (`prefix_of_around`), and
both arrive at the last of them (`mem_hits_iff`, `rest_eq`).

So an error is counted at the entry that the cursor on its lines brings into focus (`innermost_apply`).
-/

namespace SymbolOutline

open Forest Rose

/-- One more error counted at `a`, as an item at `c` counts it or takes note of it. -/
def Tally.withError (t : Tally) (c a : Outline.Address) : Tally where
  errors := t.errors + if c = a then 1 else 0
  warnings := t.warnings
  errorBelow := t.errorBelow || decide (c <+: a ∧ c ≠ a)
  warningBelow := t.warningBelow

theorem Tally.withError_nil (t : Tally) {c : Outline.Address} (hc : c ≠ []) :
    t.withError c [] = t := by
  simp [withError, hc]

namespace Outline

variable {o : Outline} {d e : Span} {a b : Address} {i j : Item}

/-! ## Around a span -/

/-- The lines of every entry are among those of the one right above it, and no two siblings share a line. -/
structure Laminar (o : Outline) : Prop where
  inside : LinesInside o
  apart : ∀ a m n, m ≠ n → ∀ i ∈ valueAt? o (a ++ [m]), ∀ j ∈ valueAt? o (a ++ [n]),
    i.range.lastLine < j.range.firstLine ∨ j.range.lastLine < i.range.firstLine

/-- Branches of which no two share a line make a laminar outline if each of them does. -/
theorem laminar_of_branches {ts : Forest Item}
    (hapart : ts.Pairwise fun s t => s.value.range.lastLine < t.value.range.firstLine ∨
      t.value.range.lastLine < s.value.range.firstLine)
    (hbelow : ∀ t ∈ ts, (∀ u ∈ t.children, t.value.range.CoversLines u.value.range) ∧ Laminar t.children) :
    Laminar ts := by
  have hvalue : ∀ {n : Nat} {j : Item}, j ∈ valueAt? ts ([] ++ [n]) → ∃ t, ts[n]? = some t ∧ t.value = j :=
    fun hj => by
      obtain ⟨t, ht, hj⟩ := Option.bind_eq_some_iff.1 hj
      exact ⟨t, ht, Option.some.inj hj⟩
  have hdown : ∀ {m n : Nat} {a : Address} {j : Item}, j ∈ valueAt? ts (m :: a ++ [n]) →
      ∃ t, ts[m]? = some t ∧ j ∈ valueAt? t.children (a ++ [n]) := fun hj => by
    obtain ⟨t, ht, hj⟩ := Option.bind_eq_some_iff.1 hj
    exact ⟨t, ht, by rwa [← valueAt?_of_ne_nil (by simp)]⟩
  constructor
  · intro a n i hi j hj
    cases a with
    | nil => cases hi
    | cons m a =>
      obtain ⟨t, ht, hj⟩ := hdown hj
      rw [valueAt?_cons ht] at hi
      obtain ⟨hcovers, hinside, -⟩ := hbelow t (List.mem_of_getElem? ht)
      cases a with
      | nil =>
        obtain rfl : t.value = i := Option.some.inj hi
        obtain ⟨u, hu, huj⟩ := Option.bind_eq_some_iff.1 hj
        obtain rfl : u.value = j := Option.some.inj huj
        exact hcovers u (List.mem_of_getElem? hu)
      | cons k a =>
        rw [valueAt?_of_ne_nil (List.cons_ne_nil k a)] at hi
        exact hinside (k :: a) n i hi j hj
  · intro a m n hmn i hi j hj
    cases a with
    | nil =>
      obtain ⟨t, ht, rfl⟩ := hvalue hi
      obtain ⟨u, hu, rfl⟩ := hvalue hj
      obtain ⟨hm, rfl⟩ := List.getElem?_eq_some_iff.1 ht
      obtain ⟨hn, rfl⟩ := List.getElem?_eq_some_iff.1 hu
      rcases Nat.lt_or_gt_of_ne hmn with hlt | hlt
      · exact List.pairwise_iff_getElem.1 hapart m n hm hn hlt
      · exact (List.pairwise_iff_getElem.1 hapart n m hn hm hlt).symm
    | cons k a =>
      obtain ⟨t, ht, hi⟩ := hdown hi
      obtain ⟨u, hu, hj⟩ := hdown hj
      obtain rfl : t = u := Option.some.inj (ht.symm.trans hu)
      exact (hbelow t (List.mem_of_getElem? ht)).2.apart a m n hmn i hi j hj

theorem atHome_iff_around : AtHome o d a ↔ Around o d a ∧ ∀ n, ¬ Around o d (a ++ [n]) := by
  refine and_congr_right fun _ => forall_congr' fun n => ?_
  simp only [Around, not_exists, not_and]

theorem atHome_congr (h : linesOf e = linesOf d) : AtHome o e a ↔ AtHome o d a := by
  obtain ⟨hfirst, hlast⟩ := Lines.mk.inj h
  unfold AtHome Span.CoversLines
  rw [hfirst, hlast]

namespace Laminar

theorem rooted (h : Laminar o) (ha : Around o d a) : Rooted o d := by
  obtain ⟨i, hi, hd⟩ := ha
  exact rooted_of_mem h.inside hi hd

theorem around_above (h : Laminar o) (ha : Around o d a) (hb : b ≠ []) (hba : b <+: a) : Around o d b := by
  obtain ⟨c, rfl⟩ := hba
  induction c using List.reverseRecOn with
  | nil => rwa [List.append_nil] at ha
  | append_singleton c n ih =>
    obtain ⟨j, hj, hjd⟩ := ha
    rw [← List.append_assoc] at hj
    obtain ⟨i, hi⟩ := mem_addresses.1 (mem_addresses_above (mem_addresses.2 ⟨j, hj⟩)
      (List.prefix_append (b ++ c) [n]) (List.append_ne_nil_of_left_ne_nil hb c))
    have hij := h.inside (b ++ c) n i hi j hj
    exact ih ⟨i, hi, hij.1.trans hjd.1, hjd.2.trans hij.2⟩

theorem around_of_append (h : Laminar o) {n : Nat} (ha : Around o d (a ++ n :: b)) : Around o d (a ++ [n]) :=
  h.around_above ha (by simp) (by simp)

theorem eq_of_around (h : Laminar o) {m n : Nat} (hm : Around o d (a ++ [m]))
    (hn : Around o d (a ++ [n])) : m = n := by
  by_contra hne
  obtain ⟨i, hi, hid⟩ := hm
  obtain ⟨j, hj, hjd⟩ := hn
  have hlines := d.firstLine_le_lastLine
  rcases h.apart a m n hne i hi j hj with hlt | hlt
  · exact absurd (hid.2.trans_lt hlt) (by have := hjd.1; omega)
  · exact absurd (hjd.2.trans_lt hlt) (by have := hid.1; omega)

/-- The entries around a span are those at and above its home. -/
theorem prefix_of_around (h : Laminar o) (ha : AtHome o d a) (hb : Around o d b) : b <+: a := by
  obtain ⟨haround, hnone⟩ := atHome_iff_around.1 ha
  rcases prefix_or_part b a with hba | ⟨c, rfl⟩ | ⟨p, m, n, c, c', rfl, rfl, hne⟩
  · exact hba
  · cases c with
    | nil => exact ⟨[], by simp⟩
    | cons n c => exact absurd (h.around_of_append hb) (hnone n)
  · exact absurd (h.eq_of_around (h.around_of_append hb) (h.around_of_append haround)) hne

theorem atHome_unique (h : Laminar o) (ha : AtHome o d a) (hb : AtHome o d b) : a = b :=
  (h.prefix_of_around hb ha.1).eq_of_length_le (h.prefix_of_around ha hb.1).length_le

/-! ## What a query finds -/

theorem visits_liesIn (h : Laminar o) :
    Visits (linesOf d) o (linesOf d).LiesIn a ↔ Around o d a := by
  refine ⟨And.left, fun ha => ⟨ha, fun b hb _ i hi => ?_⟩⟩
  have hb0 : b ≠ [] := by rintro rfl; cases hi
  obtain ⟨j, hj, hjd⟩ := h.around_above ha hb0 hb
  obtain rfl : i = j := Option.some.inj (hi.symm.trans hj)
  have hlines := d.firstLine_le_lastLine
  exact ⟨hjd.1.trans hlines, hlines.trans hjd.2⟩

/-- Where no entry starts within the lines of a span, a query finds the span's home and nothing else. -/
theorem mem_hits_iff (h : Laminar o) (hs : ∀ i ∈ o.items, ¬ (linesOf d).Starts i) :
    a ∈ hits (linesOf d) o ↔ AtHome o d a := by
  have hstarts : ∀ b, ¬ Visits (linesOf d) o (linesOf d).Starts b := fun b ⟨⟨i, hi, hi'⟩, _⟩ =>
    hs i (mem_valuesAll_of_valueAt? hi) hi'
  have hmatches : ∀ b, Visits (linesOf d) o (linesOf d).Matches b ↔ Around o d b := by
    intro b
    rw [← h.visits_liesIn]
    refine ⟨?_, fun ⟨⟨i, hi, hl⟩, habove⟩ => ⟨⟨i, hi, .inr hl⟩, habove⟩⟩
    rintro ⟨⟨i, hi, hi' | hi'⟩, habove⟩
    · exact absurd hi' (hs i (mem_valuesAll_of_valueAt? hi))
    · exact ⟨⟨i, hi, hi'⟩, habove⟩
  rw [mem_hits, Fallback, h.visits_liesIn, atHome_iff_around]
  simp only [hstarts, not_false_eq_true, true_and, false_or, NoneAhead, hmatches]
  refine and_congr_right fun ha => ?_
  obtain ⟨p, m, rfl⟩ : ∃ p m, a = p ++ [m] :=
    ⟨_, _, (List.dropLast_concat_getLast (ne_nil_of_around ha)).symm⟩
  constructor
  · exact fun hahead n => hahead _ ⟨p, m, m, [n], rfl, by simp, .inr ⟨rfl, by simp⟩⟩
  · rintro hnone b ⟨p', m', n, c, hp, rfl, hn⟩ hb
    obtain ⟨rfl, rfl⟩ : p = p' ∧ m = m' := by simpa using hp
    rcases hn with hlt | ⟨rfl, hc⟩
    · exact absurd (h.eq_of_around (h.around_of_append hb) ha) hlt.ne
    · obtain ⟨k, c, rfl⟩ := List.exists_cons_of_ne_nil hc
      refine hnone k (h.around_of_append (b := c) ?_)
      simpa using hb

theorem hits_eq (h : Laminar o) (hs : ∀ i ∈ o.items, ¬ (linesOf d).Starts i) (ha : AtHome o d a) :
    hits (linesOf d) o = [a] := by
  refine List.perm_singleton.1 ((List.perm_ext_iff_of_nodup (nodup_hitsIn _ _ _) (List.nodup_singleton a)).2
    fun b => ?_)
  rw [List.mem_singleton]
  exact (h.mem_hits_iff hs).trans ⟨fun hb => h.atHome_unique hb ha, fun hb => hb ▸ ha⟩

/-! ## Where a diagnostic rests -/

/-- A diagnostic comes to rest in the same place, wherever the one before it rests. -/
theorem rest_eq (h : Laminar o) (a : Address) (d : Span) : o.rest a d = o.rest [] d := by
  by_cases hr : Rooted o d
  · exact h.atHome_unique (atHome_rest (.inr hr)) (atHome_rest (.inr hr))
  · have hnil : ∀ b, o.rest b d = [] := by
      intro b
      by_contra hne
      exact hr (h.rooted (atHome_rest (rest_ne_nil.1 hne)).1)
    rw [hnil, hnil]

theorem rest_eq_iff (h : Laminar o) (ha : a ≠ []) : o.rest [] d = a ↔ AtHome o d a := by
  constructor
  · rintro rfl
    exact atHome_rest (rest_ne_nil.1 ha)
  · exact fun hhome => h.atHome_unique (atHome_rest (.inr (h.rooted hhome.1))) hhome

theorem rests_eq_map (h : Laminar o) (a : Address) (q : List (Span × Severity)) :
    o.rests a q = q.map fun d => (o.rest [] d.1, d.2) := by
  induction q generalizing a with
  | nil => rfl
  | cons d q ih => rw [rests, ih, h.rest_eq, List.map_cons]

end Laminar

/-! ## One error more -/

theorem wipe_untally (ps : List Path) (o : Outline) : wipe ps o.untally = o.untally := by
  induction ps with
  | nil => rfl
  | cons p ps ih =>
    have hfirst : modifyItem Item.untally p o.untally = o.untally :=
      (modify_mapAll (φ := Item.untally) (f := setValue Item.untally) (g := setValue Item.untally)
        (fun _ => rfl) (fun t => by cases t; rfl) p o).trans (untally_wipe [p] o)
    show wipe ps (modifyItem Item.untally p o.untally) = _
    rw [hfirst, ih]

theorem add_shareAt_error (t : Tally) (c a : Address) :
    t.add (shareAt c [(a, .error)]) = t.withError c a := by
  have hbelow : ∀ s, (shareAt c [(a, .error)]).any (fun f => f.1 ≠ [] ∧ f.2 = s) =
      decide (s = .error ∧ c <+: a ∧ c ≠ a) := by
    intro s
    rw [Bool.eq_iff_iff, List.any_eq_true, decide_eq_true_iff]
    simp only [decide_eq_true_eq]
    constructor
    · rintro ⟨⟨b, r⟩, hf, hb, rfl⟩
      obtain ⟨rfl, rfl⟩ : c ++ b = a ∧ r = .error := by simpa using mem_shareAt.1 hf
      exact ⟨rfl, List.prefix_append c b, by simpa using hb⟩
    · rintro ⟨rfl, ⟨b, rfl⟩, hne⟩
      exact ⟨(b, .error), mem_shareAt.2 (List.mem_singleton_self _), by simpa using hne, rfl⟩
  unfold Tally.add Tally.withError
  rw [countP_shareAt, countP_shareAt, hbelow, hbelow, Tally.mk.injEq]
  refine ⟨?_, by simp, by simp, by simp⟩
  by_cases hca : c = a <;> simp [hca, eq_comm]

end Outline

namespace Badges

open Outline

variable {o : Outline} {a : Address} {i : Item} {d : Span} {e : Diagnostic} {before after : List Diagnostic}

theorem perm_queue_error (he : e.severity = some .error) (before after : List Diagnostic) :
    (Diagnostic.queue (before ++ e :: after)).Perm
      (Diagnostic.queue (before ++ after) ++ [(e.range, .error)]) := by
  have hgrave : e.grave? = some (e.range, .error) := by rw [Diagnostic.grave?, he]
  have hmiddle : ((before ++ e :: after).filterMap Diagnostic.grave?).Perm
      ((e.range, .error) :: (before ++ after).filterMap Diagnostic.grave?) := by
    rw [List.filterMap_append, List.filterMap_cons_some hgrave, List.filterMap_append]
    exact List.perm_middle
  refine (List.mergeSort_perm _ _).trans (hmiddle.trans ?_)
  exact ((List.mergeSort_perm _ _).symm.cons _).trans (List.perm_append_singleton _ _).symm

/-- An error more in a list is counted where it comes to rest, and nothing else changes. -/
theorem valueAt?_apply_error (h : Laminar o) (hz : ∀ i ∈ o.items, i.tally = .zero) (b : Badges)
    (he : e.severity = some .error) (before after : List Diagnostic) (c : Address) :
    Forest.valueAt? (b.apply o (before ++ e :: after)).2.1 c =
      (Forest.valueAt? (b.apply o (before ++ after)).2.1 c).map fun j =>
        { j with tally := j.tally.withError c (o.rest [] e.range) } := by
  have hwiped : wipe b.touched.toList o = o := by
    rw [← untally_of_zero hz, wipe_untally]
  have hfound : (o.rests [] (Diagnostic.queue (before ++ e :: after))).Perm
      (o.rests [] (Diagnostic.queue (before ++ after)) ++ [(o.rest [] e.range, .error)]) := by
    rw [h.rests_eq_map, h.rests_eq_map]
    have hmap := (perm_queue_error he before after).map fun d => (o.rest [] d.1, d.2)
    rwa [List.map_append] at hmap
  show Forest.valueAt? (tallyFrom 0 ((wipe b.touched.toList o).rests [] _) (wipe b.touched.toList o)) c =
    (Forest.valueAt? (tallyFrom 0 ((wipe b.touched.toList o).rests [] _) (wipe b.touched.toList o)) c).map _
  rw [hwiped, tallyFrom_perm hfound, valueAt?_tallyFrom, valueAt?_tallyFrom, Option.map_map, shareAt_append]
  congr 1
  funext j
  simp only [Item.count, Tally.add_append, add_shareAt_error, Function.comp_apply]

/-- The innermost entry around a span is found in both ways. If no entry starts within the lines of the span,
a query for them finds that entry alone, and an error on them is counted there, whatever else is listed and
was listed before. If the lines lie in no root, nothing is found and the error is not counted. -/
theorem innermost_apply {o : Outline} (h : Laminar o) (hz : ∀ i ∈ o.items, i.tally = .zero) {d : Span}
    (hs : ∀ i ∈ o.items, ¬ (linesOf d).Starts i) :
    (Rooted o d → ∃ a i, (∀ b, AtHome o d b ↔ b = a) ∧ Forest.valueAt? o a = some i ∧
      hits (linesOf d) o = [a] ∧ (search (linesOf d) o).inRange = [i] ∧
      ∀ (b : Badges) (before after : List Diagnostic) (e : Diagnostic), e.severity = some .error →
        linesOf e.range = linesOf d → ∀ c,
        Forest.valueAt? (b.apply o (before ++ e :: after)).2.1 c =
          (Forest.valueAt? (b.apply o (before ++ after)).2.1 c).map fun j =>
            { j with tally := j.tally.withError c a }) ∧
    (¬ Rooted o d → hits (linesOf d) o = [] ∧ (search (linesOf d) o).inRange = [] ∧
      ∀ (b : Badges) (before after : List Diagnostic) (e : Diagnostic), e.severity = some .error →
        linesOf e.range = linesOf d →
        (b.apply o (before ++ e :: after)).2.1 = (b.apply o (before ++ after)).2.1) := by
  have hrange : (search (linesOf d) o).inRange.map some = (hits (linesOf d) o).map (Forest.valueAt? o) :=
    (readOff (linesOf d) o false).1
  constructor
  · intro hr
    obtain ⟨a, hhome⟩ : ∃ a, AtHome o d a := ⟨_, atHome_rest (a := []) (.inr hr)⟩
    obtain ⟨i, hi, -⟩ := hhome.1
    have hhits := h.hits_eq hs hhome
    rw [hhits, List.map_singleton, hi] at hrange
    refine ⟨a, i, fun b => ⟨fun hb => h.atHome_unique hb hhome, fun hb => hb ▸ hhome⟩, hi, hhits,
      List.map_injective_iff.2 (Option.some_injective Item) hrange, fun b before after e he hline c => ?_⟩
    have hrest := (h.rest_eq_iff (ne_nil_of_atHome hhome)).2 ((atHome_congr hline).2 hhome)
    rw [valueAt?_apply_error h hz b he, hrest]
  · intro hr
    have hnone : ∀ a, ¬ AtHome o d a := fun a ha => hr (h.rooted ha.1)
    have hhits : hits (linesOf d) o = [] :=
      List.eq_nil_iff_forall_not_mem.2 fun a ha => hnone a ((h.mem_hits_iff hs).1 ha)
    rw [hhits, List.map_nil] at hrange
    refine ⟨hhits, List.map_eq_nil_iff.1 hrange, fun b before after e he hline => Forest.ext_valueAt? fun c => ?_⟩
    have hrest : o.rest [] e.range = [] := by
      by_contra hne
      exact hnone _ ((atHome_congr hline).1 ((h.rest_eq_iff hne).1 rfl))
    rw [valueAt?_apply_error h hz b he, hrest]
    cases c with
    | nil => rfl
    | cons n c => simp only [Tally.withError_nil _ (List.cons_ne_nil n c), Option.map_id']

/-- Functions one in the other. The lines 5 and 6 are in the outer two and not in the innermost one. -/
theorem innermost_apply_nested :
    let item (name : String) (range : Span) (children : Forest Item) : Rose Item :=
      node (.fresh ⟨.function, name⟩ "" range range) children
    let o := ofForest [item "a" (.ofLines 0 9) [item "b" (.ofLines 2 8) [item "c" (.ofLines 4 4) []]],
      item "d" (.ofLines 12 15) []]
    let d := Span.ofLines 5 6
    let error : Diagnostic := ⟨d, some .error, .none, .none, ""⟩
    let warning : Diagnostic := ⟨.ofLines 0 13, some .warning, .none, .none, ""⟩
    (Laminar o ∧ (∀ i ∈ o.items, i.tally = .zero) ∧ (∀ i ∈ o.items, ¬ (linesOf d).Starts i) ∧ Rooted o d) ∧
      (search (linesOf d) o).inRange.map (·.key.name) = ["b"] ∧ AtHome o d [0, 0] ∧
      ∀ c, Forest.valueAt? (Badges.none.apply o [warning, error]).2.1 c =
        (Forest.valueAt? (Badges.none.apply o [warning]).2.1 c).map fun j =>
          { j with tally := j.tally.withError c [0, 0] } := by
  intro item o d error warning
  have hlaminar : Laminar o := by
    have hleaf : Laminar [] := laminar_of_branches .nil (List.forall_mem_nil _)
    refine laminar_of_branches (by subst o item; decide +kernel) (List.forall_mem_cons.2
      ⟨⟨by subst o item; decide +kernel, ?_⟩, List.forall_mem_singleton.2 ⟨List.forall_mem_nil _, hleaf⟩⟩)
    refine laminar_of_branches (List.pairwise_singleton ..) (List.forall_mem_singleton.2
      ⟨by subst o item; decide +kernel, ?_⟩)
    exact laminar_of_branches (List.pairwise_singleton ..) (List.forall_mem_singleton.2
      ⟨List.forall_mem_nil _, hleaf⟩)
  have hz : ∀ i ∈ o.items, i.tally = .zero := by subst o item; decide +kernel
  have hs : ∀ i ∈ o.items, ¬ (linesOf d).Starts i := by subst o item d; decide +kernel
  have hr : Rooted o d := by subst o item d; decide +kernel
  have hfound : hits (linesOf d) o = [[0, 0]] ∧ (search (linesOf d) o).inRange.map (·.key.name) = ["b"] := by
    subst o item d; decide +kernel
  obtain ⟨a, i, hhome, -, hhits, -, herror⟩ := (innermost_apply hlaminar hz hs).1 hr
  obtain rfl : a = [0, 0] := List.singleton_inj.1 (hhits.symm.trans hfound.1)
  exact ⟨⟨hlaminar, hz, hs, hr⟩, hfound.2, (hhome _).2 rfl, herror .none [warning] [] error rfl rfl⟩

end Badges

end SymbolOutline
