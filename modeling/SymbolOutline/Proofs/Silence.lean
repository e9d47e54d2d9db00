import Mathlib.Data.List.Basic
import SymbolOutline.Proofs.Folds
import SymbolOutline.Proofs.Insertion
import SymbolOutline.Proofs.Recount
import SymbolOutline.Proofs.WorkingSets

/-
What a rebuild says that brings the same symbols again. The new outline is the bare form of the old one, so the
comparison keeps every entry in its place (`reconcile_mapAll`) and each gets its own expansion back. But what is
bare has no badges: the comparison takes them all off, and the diagnostics put them up again right after
(`renewed_completeRebuild`). A display is told nothing only where there are no badges.

What an outline was made of is worked out along the run, beside the session (`originAfter`).
-/

namespace SymbolOutline

open Forest Rose

/-- An item neither expanded nor in view nor focused, and without diagnostics. -/
def Item.bare (i : Item) : Item := i.unlit.untally

/-! ## Badges -/

theorem Tally.badge_eq_blank {t : Tally} : t.badge = .blank ↔ t = .zero := by
  refine ⟨fun h => ?_, fun h => h ▸ rfl⟩
  obtain ⟨errors, warnings, errorBelow, warningBelow⟩ := t
  unfold badge Badge.blank at h
  unfold zero
  -- only where there is nothing to show is there no severity
  split_ifs at h with herrors herrorBelow hwarnings hwarningBelow
  · simp at h
  · simp at h
  · simp at h
  · simp at h
  · have hzero : ∀ n : UInt32, ¬ 0 < n → n = 0 := fun n hn => by
      simpa [UInt32.pos_iff_ne_zero] using hn
    rw [mk.injEq]
    exact ⟨hzero errors herrors, hzero warnings hwarnings, eq_false_of_ne_true herrorBelow,
      eq_false_of_ne_true hwarningBelow⟩

namespace Outline

theorem badgeUpdates_eq_nil {p : Path} {a b : Badge} : badgeUpdates p a b = [] ↔ a = b := by
  obtain ⟨severity, count⟩ := a
  obtain ⟨severity', count'⟩ := b
  simp [badgeUpdates]

end Outline

namespace Badges

variable {b : Badges} {o : Outline}

/-- Of an outline without tallies, the badges are put up that the diagnostics give, and nothing else is reported. -/
theorem mem_changes_apply (h : o.WellKeyed) (hz : ∀ i ∈ o.items, i.tally = .zero) (ds : List Diagnostic)
    (c : Change) : c ∈ (Badges.none.apply o ds).2.2 ↔
      ∃ j ∈ (Badges.none.apply o ds).2.1.items, c ∈ Outline.badgeUpdates j.path .blank j.tally.badge := by
  have hc := counted_none hz
  have hat : ∀ j ∈ (Badges.none.apply o ds).2.1.items,
      Badges.none.updatesAt o ds j.path = Outline.badgeUpdates j.path .blank j.tally.badge := by
    intro j hj
    obtain ⟨resting, ho, -⟩ := apply_resting h hc ds
    obtain ⟨i, hi, hpath⟩ : ∃ i ∈ o.items, j.path = i.path := by
      rw [ho, Outline.items_mapAll] at hj
      obtain ⟨i, hi, rfl⟩ := List.mem_map.1 hj
      exact ⟨i, hi, rfl⟩
    rw [hpath, updatesAt_of_mem h hc ds hi hj hpath, hz i hi]
    rfl
  rw [changes_apply, List.mem_flatMap]
  constructor
  · rintro ⟨p, hp, hmem⟩
    -- nothing is known from before, so the path is touched
    have htouched : p ∈ (Badges.none.apply o ds).1.touched :=
      (PathSet.mem_insertAll.1 hp).resolve_left List.not_mem_nil
    obtain ⟨j, hj, rfl, -⟩ := exists_of_mem_touched_apply h hc htouched
    exact ⟨j, hj, hat j hj ▸ hmem⟩
  · rintro ⟨j, hj, hmem⟩
    have htally : j.tally ≠ .zero := by
      intro ht
      rw [Tally.badge_eq_blank.2 ht, Outline.badgeUpdates_eq_nil.2 rfl] at hmem
      cases hmem
    have htouched := counted_apply h hc ds j hj htally
    exact ⟨j.path, PathSet.mem_insertAll.2 (.inr htouched), (hat j hj).symm ▸ hmem⟩

theorem changes_apply_eq_nil (h : o.WellKeyed) (hz : ∀ i ∈ o.items, i.tally = .zero) (ds : List Diagnostic) :
    (Badges.none.apply o ds).2.2 = [] ↔ ∀ j ∈ (Badges.none.apply o ds).2.1.items, j.tally = .zero := by
  rw [List.eq_nil_iff_forall_not_mem]
  simp only [mem_changes_apply h hz, not_exists, not_and]
  constructor
  · intro hnone j hj
    exact Tally.badge_eq_blank.1 (Outline.badgeUpdates_eq_nil.1 (List.eq_nil_iff_forall_not_mem.2
      fun c hc => hnone c j hj hc)).symm
  · intro hzero c j hj hc
    rw [Tally.badge_eq_blank.2 (hzero j hj), Outline.badgeUpdates_eq_nil.2 rfl] at hc
    cases hc

end Badges

/-! ## Comparing an outline with its bare form -/

namespace Outline

variable {o : Outline}

/-- Where every entry has a new form with its key, each is matched with it in its place. -/
theorem reconcile_mapAll {f : Item → Item} (hf : ∀ i, (f i).key = i.key) (place : Path) (ts : Forest Item)
    (next : Option Key) : reconcile place ts (mapAll f ts) next =
      ⟨(valuesAll ts).flatMap fun i => i.updatesTo (f i),
        (valuesAll ts).map fun i => ((f i).path, i.expanded)⟩ := by
  induction ts using induct_forest generalizing place next with
  | nil => rw [mapAll_nil, reconcile]; rfl
  | cons i cs ts ihc ih =>
    have hk : (node i cs).key = (node (f i) (mapAll f cs)).key := (hf i).symm
    have below : revise (node i cs) (node (f i) (mapAll f cs)) =
        ⟨i.updatesTo (f i), [((f i).path, i.expanded)]⟩ ++
          reconcile (f i).path cs (mapAll f cs) none := by
      cases cs with
      | nil => rw [revise, mapAll_nil, reconcile]; rfl
      | cons c cs => rw [revise]; rfl
    rw [mapAll_cons, map_node, reconcile, if_pos hk, below, ihc, ih, valuesAll_cons]
    show Delta.mk (_ ++ _ ++ _) (_ ++ _ ++ _) = _
    rw [List.flatMap_cons, List.flatMap_append, List.map_cons, List.map_append, List.append_assoc,
      List.append_assoc]
    rfl

/-- No item is in view or in focus. -/
def Dark (o : Outline) : Prop := ∀ i ∈ o.items, i.focused = false ∧ i.inView = false

instance (o : Outline) : Decidable o.Dark := inferInstanceAs (Decidable (∀ i ∈ o.items, _))

theorem updatesTo_bare {i : Item} (hi : i.focused = false ∧ i.inView = false) :
    i.updatesTo i.bare = badgeUpdates i.path i.tally.badge .blank := by
  obtain ⟨hf, hv⟩ := hi
  have hshown : i.bare.shown = [(.detail, .text i.detail), (.range, .span i.range),
      (.selection, .span i.selection), (.inView, .flag false), (.focused, .flag false),
      (.severity, .severity none), (.count, .count 0)] := rfl
  unfold Item.updatesTo
  rw [hshown, Item.shown, hf, hv]
  unfold badgeUpdates Badge.blank
  split_ifs <;> simp_all [Item.bare, Item.untally, Item.unlit]

theorem bare_eq_mapAll (o : Outline) : o.bare = mapAll Item.bare o := mapAll_mapAll ..

theorem wellKeyed_bare (h : o.WellKeyed) : o.bare.WellKeyed := by
  rw [bare_eq_mapAll]
  exact h.mapAll (fun _ => rfl) fun _ => rfl

/-- The bare form of an outline takes the badges off, and every item lends it its expansion. -/
theorem changesTo_bare (h : o.Dark) : o.changesTo o.bare =
    ⟨o.items.flatMap fun i => badgeUpdates i.path i.tally.badge .blank,
      o.items.map fun i => (i.path, i.expanded)⟩ := by
  rw [changesTo, bare_eq_mapAll, reconcile_mapAll (f := Item.bare) fun _ => rfl]
  congr 1
  exact List.flatMap_congr fun i hi => updatesTo_bare (h i hi)

/-- With its own expansion, the bare form of an outline lacks nothing but the tallies. -/
theorem lendExpansion_bare (h : o.WellKeyed) (hdark : o.Dark) :
    lendExpansion (o.changesTo o.bare).expansion o.bare = o.untally := by
  rw [lendExpansion_eq (wellKeyed_bare h), changesTo_bare hdark, bare_eq_mapAll, mapAll_mapAll, untally]
  refine mapAll_congr fun i hi => ?_
  have hsame : ∀ c, (i.path, c) ∈ o.items.map (fun i => (i.path, i.expanded)) → c = i.expanded := by
    intro c hc
    obtain ⟨j, hj, hji⟩ := List.mem_map.1 hc
    obtain ⟨hpath, rfl⟩ := Prod.mk.inj hji
    have hitem := h.item?_eq_some.2 ⟨hj, hpath⟩
    rw [h.item?_eq_some.2 ⟨hi, rfl⟩] at hitem
    rw [Option.some.inj hitem]
  have hexpanded := Item.expanded_lend (i := i.bare) hsame
  obtain ⟨b, hb⟩ := Item.lend_eq (o.items.map fun i => (i.path, i.expanded)) i.bare
  have hmem : (i.bare.path, i.expanded) ∈ o.items.map fun i => (i.path, i.expanded) :=
    List.mem_map.2 ⟨i, hi, rfl⟩
  rw [if_pos hmem, hb] at hexpanded
  obtain rfl : b = i.expanded := hexpanded
  obtain ⟨hf, hv⟩ := hdark i hi
  rw [Function.comp_apply, Delta.expansion, Expansion.lend_ofEntries, hb]
  simp [Item.bare, Item.untally, Item.unlit, hf, hv]

end Outline

/-! ## The list that was put down last -/

theorem Item.eq_of_unlit_of_untally {i j : Item} (hl : i.unlit = j.unlit) (hu : i.untally = j.untally) : i = j := by
  calc i = { i.unlit with
        expanded := i.untally.expanded, inView := i.untally.inView, focused := i.untally.focused } := rfl
    _ = { j.unlit with
        expanded := j.untally.expanded, inView := j.untally.inView, focused := j.untally.focused } := by rw [hl, hu]
    _ = j := rfl

namespace Outline

variable {o : Outline}

theorem tally_untally (o : Outline) : ∀ i ∈ o.untally.items, i.tally = .zero := by
  intro i hi
  rw [untally, items_mapAll] at hi
  obtain ⟨j, -, rfl⟩ := List.mem_map.1 hi
  rfl

theorem eq_of_unlit_of_untally {o' : Outline} (hl : o'.unlit = o.unlit) (hu : o'.untally = o.untally) : o' = o := by
  refine ext_valueAt? fun a => ?_
  have hlit := congrArg (Forest.valueAt? · a) hl
  have htally := congrArg (Forest.valueAt? · a) hu
  simp only [unlit, untally, Forest.valueAt?_mapAll] at hlit htally
  cases hi : Forest.valueAt? o' a with
  | none =>
    rw [hi] at hlit
    exact (Option.map_eq_none_iff.1 hlit.symm).symm
  | some i =>
    rw [hi] at hlit htally
    obtain ⟨j, hj, hji⟩ := Option.map_eq_some_iff.1 hlit.symm
    rw [hj] at htally ⊢
    rw [Item.eq_of_unlit_of_untally hji.symm (Option.some.inj htally)]

end Outline

namespace Badges

open Outline

variable {b : Badges} {o : Outline}

/-- A list takes the place of the one before, so it leaves the outline as a first one does. -/
theorem apply_eq_diagnosed (h : o.WellKeyed) (hb : b.Counted o) (ds : List Diagnostic) :
    (b.apply o ds).2.1 = o.diagnosed ds := by
  have hwiped : wipe b.touched.toList o = o.untally := wipe_touched h hb
  show tallyFrom 0 (rests (wipe b.touched.toList o) [] _) (wipe b.touched.toList o) = _
  rw [hwiped]
  rfl

theorem counted_replay (h : o.WellKeyed) (hb : b.Counted o) (lists : List (List Diagnostic)) :
    (replay lists (b, o)).2.WellKeyed ∧ (replay lists (b, o)).1.Counted (replay lists (b, o)).2 := by
  induction lists generalizing b o with
  | nil => exact ⟨h, hb⟩
  | cons ds lists ih => exact ih (wellKeyed_apply h hb ds) (counted_apply h hb ds)

/-- The list that was put down last, put down again as a first one, changes nothing. -/
theorem diagnosed_of_replay (h : o.WellKeyed) {lists : List (List Diagnostic)} {ds : List Diagnostic}
    (hlast : lists.getLast? = some ds) (hr : replay lists (.none, o.bare) = (b, o.unlit)) : o.diagnosed ds = o := by
  obtain ⟨before, rfl⟩ := List.getLast?_eq_some_iff.1 hlast
  obtain ⟨hwell, hcounted⟩ := counted_replay (wellKeyed_bare h) (counted_none (tally_untally o.unlit)) before
  have huntally : (replay before (.none, o.bare)).2.untally = o.bare := by
    rw [untally_replay, bare, untally_untally]
  have hunlit : o.unlit = (o.diagnosed ds).unlit := by
    rw [replay_concat, apply_eq_diagnosed hwell hcounted, diagnosed, huntally, bare_eq,
      (apply_unlit .none o.untally ds).2] at hr
    exact (Prod.mk.inj hr).2.symm
  exact eq_of_unlit_of_untally hunlit.symm (untally_diagnosed o ds)

end Badges

/-! ## What an outline was made of -/

namespace Session

open Outline

/-- What an outline was made of: a document, with its symbols and its text. -/
structure Origin where
  document : Document
  symbols : Forest Symbol
  text : Option TextLines

variable {s s' : Session} {made : Option Origin}

/-- What the outline after an event was made of. -/
def origin (s : Session) (made : Option Origin) : Event → Option Origin
  | .updateDocument document => if document.any Document.isSupported then made else none
  | .completeRebuild t symbols text =>
    if s.IsCurrent t then
      if s.outlineOf symbols text = [] then none else some ⟨t.document, symbols, text⟩
    else made
  | .clear _ => none
  | _ => made

/-- What the outline after a run was made of. -/
def originAfter (s : Session) (made : Option Origin) : List Event → Option Origin
  | [] => made
  | e :: es => (s.step e).2.originAfter (s.origin made e) es

/-- Texts are not compared by value, so of an origin without a text the rest is. -/
theorem origin_eq_of_parts {d : Document} {symbols : Forest Symbol}
    (h : made.map (fun m => (m.document, m.symbols, m.text.isNone)) = some (d, symbols, true)) :
    made = some ⟨d, symbols, none⟩ := by
  obtain ⟨⟨d', symbols', text⟩, rfl, hparts⟩ := Option.map_eq_some_iff.1 h
  simp only [Prod.mk.injEq, Option.isNone_iff_eq_none] at hparts
  obtain ⟨rfl, rfl, rfl⟩ := hparts
  rfl

/-- The entries of the outline are those that its origin gives it, and there are some. -/
structure Stems (s : Session) (made : Option Origin) : Prop where
  bare : s.outline.map bare = made.map fun m => s.outlineOf m.symbols m.text
  ne_nil : ∀ m ∈ made, s.outlineOf m.symbols m.text ≠ []

theorem Stems.of_none (ho : s.outline = none) : s.Stems none :=
  ⟨by rw [ho]; rfl, fun m hm => by cases hm⟩

theorem Stems.congr (h : s.Stems made) (ho : s'.outline.map Outline.bare = s.outline.map Outline.bare)
    (hs : ∀ symbols text, s'.outlineOf symbols text = s.outlineOf symbols text) : s'.Stems made := by
  refine ⟨?_, fun m hm => hs m.symbols m.text ▸ h.ne_nil m hm⟩
  rw [ho, h.bare]
  simp only [hs]

theorem bare_outlineOf (s : Session) (symbols : Forest Symbol) (text : Option TextLines) :
    (s.outlineOf symbols text).bare = s.outlineOf symbols text := by
  rw [bare_eq_mapAll]
  refine mapAll_eq_self fun i hi => ?_
  obtain ⟨key, detail, range, selection, p, rfl⟩ := fresh_of_mem_ofSymbols hi
  rfl

theorem stems_completeRebuild (h : s.Stems made) (t : Ticket) (symbols : Forest Symbol) (text : Option TextLines) :
    (s.completeRebuild t symbols text).2.Stems (s.origin made (.completeRebuild t symbols text)) := by
  rcases s.completeRebuild_cases t symbols text with ⟨hc, hs⟩ | ⟨hc, hnil, hs⟩ | ⟨hc, hne, hs⟩
  · rw [hs, origin, if_neg hc]
    exact h
  · rw [hs, origin, if_pos hc, if_pos hnil]
    exact .of_none rfl
  · obtain ⟨shelf, inboxes, hinstall⟩ := install_spec { s with marks := s.scan text } t.document
      (s.outlineOf symbols text)
    rw [hs, hinstall, origin, if_pos hc, if_neg hne]
    refine ⟨congrArg some ?_, fun m hm => Option.some.inj hm ▸ hne⟩
    rw [Badges.bare_apply, bare_eq_mapAll, mapAll_lent fun _ _ => rfl, ← bare_eq_mapAll, bare_outlineOf]
    rfl

theorem stems_step (h : s.Stems made) (e : Event) : (s.step e).2.Stems (s.origin made e) := by
  have hs := s.outlineOf_step e
  have followed : ∀ {move : Outline → Tracker × Outline × List Change} {result : List Message × Session},
      (∀ o, Retouched o (move o).2.1 (move o).2.2) → s.Follows move result →
      result.2.outline.map bare = s.outline.map bare := by
    rintro move result hmove (⟨-, rfl⟩ | ⟨o, inboxes, ho, -, hs⟩)
    · rfl
    · rw [hs, ho]
      refine congrArg some ?_
      rw [bare, (hmove o).unlit]
      rfl
  cases e with
  | updateDocument document =>
    rcases s.updateDocument_cases document with ⟨hd, reason, hcleared⟩ | ⟨d, rfl, hd, hasked⟩
    · rw [hcleared, origin, hd]
      exact .of_none rfl
    · rw [origin, Option.any_some, hd]
      exact h.congr (by rw [hasked]) hs
  | completeRebuild t symbols text => exact stems_completeRebuild h t symbols text
  | selectionChanged cursors =>
    exact h.congr (followed (s.tracker.retouched_focus · cursors) (s.follows_selectionChanged cursors)) hs
  | viewportChanged visible =>
    exact h.congr (followed (s.tracker.retouched_view · visible) (s.follows_viewportChanged visible)) hs
  | diagnosticsChanged d ds =>
    refine h.congr ?_ hs
    rcases s.diagnosticsChanged_cases d ds with ⟨-, hkept⟩ | ⟨o, inboxes, ho, -, -, hput⟩
    · rw [step, hkept]
    · rw [step, hput, ho]
      exact congrArg some (s.badges.bare_apply o ds)
  | setPin pin => exact h.congr rfl hs
  | clear reason => exact .of_none rfl
  | changeDepth delta => exact h.congr rfl hs
  | attachView => exact h.congr rfl hs

theorem stems_run (h : s.Stems made) (es : List Event) : (s.run es).2.Stems (s.originAfter made es) := by
  induction es generalizing s made with
  | nil => exact h
  | cons e es ih => exact ih (stems_step h e)

/-! ## Rebuilds that bring the same again -/

/-- A session that makes the bare form of its outline the outline takes off all badges and puts up those that the
diagnostics give. -/
theorem install_bare {o : Outline} (ho : s.outline = some o) (h : o.WellKeyed) (hdark : o.Dark) (d : Document) :
    (s.install d o.bare).1 = [.update ((o.items.flatMap fun i => badgeUpdates i.path i.tally.badge .blank) ++
        (Badges.none.apply o.untally (s.rememberedFor d)).2.2)] ∧
      (s.install d o.bare).2.outline = some (o.diagnosed (s.rememberedFor d)) := by
  have hlent := lendExpansion_bare h hdark
  have hchanges := congrArg Delta.changes (changesTo_bare hdark)
  unfold install
  simp only [ho, hlent, hchanges]
  exact ⟨rfl, rfl⟩

/-- A rebuild with what the outline was made of makes its bare form the outline. -/
theorem completeRebuild_of_stems {t : Ticket} {symbols : Forest Symbol} {text : Option TextLines}
    (h : s.Stems (some ⟨t.document, symbols, text⟩)) {o : Outline} (ho : s.outline = some o) (hd : Distinct o)
    (hc : s.IsCurrent t) : o.WellKeyed ∧ s.completeRebuild t symbols text =
      { s with marks := s.scan text }.install t.document o.bare := by
  have hbare : o.bare = s.outlineOf symbols text := by
    have := h.bare
    rw [ho] at this
    exact Option.some.inj this
  refine ⟨⟨hd, (located_mapAll (f := Item.bare) (fun _ => rfl) fun _ => rfl).1 ?_⟩, ?_⟩
  · rw [← bare_eq_mapAll, hbare]
    exact located_ofForest _
  · rcases s.completeRebuild_cases t symbols text with ⟨hn, -⟩ | ⟨-, hn, -⟩ | ⟨-, -, hs⟩
    · exact absurd hc hn
    · exact absurd hn (h.ne_nil _ rfl)
    · rw [hs, hbare]

/-- After a run, a rebuild of the outline's document with the symbols and the text that the outline was made of, while
nothing is in view or in focus, tells displays to take off every badge and then to put up those that the remembered
diagnostics give. So they are told nothing exactly if no entry has a tally before or after. The outline stays what it
is in that case, and whenever the remembered list is the one that was put down on it last. -/
theorem renewed_completeRebuild (h : s.Fresh) (es : List Event) {t : Ticket} {symbols : Forest Symbol}
    {text : Option TextLines} (hm : s.originAfter none es = some ⟨t.document, symbols, text⟩) {o : Outline}
    (ho : (s.run es).2.outline = some o) (hd : Distinct o) (hdark : o.Dark) (hc : (s.run es).2.IsCurrent t) :
    let ds := (s.run es).2.rememberedFor t.document
    let result := (s.run es).2.completeRebuild t symbols text
    let off := o.items.flatMap fun i => badgeUpdates i.path i.tally.badge .blank
    let on := (Badges.none.apply o.untally ds).2.2
    result.1 = [.update (off ++ on)] ∧ result.2.outline = some (o.diagnosed ds) ∧
      (off ++ on = [] ↔
        (∀ i ∈ o.items, i.tally = .zero) ∧ ∀ i ∈ (o.diagnosed ds).items, i.tally = .zero) ∧
      ∃ p, s.provenance none es = some p ∧
        (off ++ on = [] ∨ p.laid.getLast?.map Prod.snd = some ds → o.diagnosed ds = o) := by
  intro ds result off on
  have hstems : (s.run es).2.Stems (some ⟨t.document, symbols, text⟩) :=
    hm ▸ stems_run (.of_none h.empty.1) es
  obtain ⟨hwell, hinstall⟩ := completeRebuild_of_stems hstems ho hd hc
  obtain ⟨hsent, hinstalled⟩ : result.1 = [.update (off ++ on)] ∧ result.2.outline = some (o.diagnosed ds) := by
    show (completeRebuild _ t symbols text).1 = _ ∧ (completeRebuild _ t symbols text).2.outline = _
    rw [hinstall]
    exact install_bare (s := { (s.run es).2 with marks := (s.run es).2.scan text }) ho hwell hdark t.document
  have hsilent : off ++ on = [] ↔
      (∀ i ∈ o.items, i.tally = .zero) ∧ ∀ i ∈ (o.diagnosed ds).items, i.tally = .zero := by
    have hbase : o.untally.WellKeyed := hwell.mapAll (fun _ => rfl) fun _ => rfl
    rw [List.append_eq_nil_iff, List.flatMap_eq_nil_iff]
    exact and_congr (forall₂_congr fun i _ => badgeUpdates_eq_nil.trans Tally.badge_eq_blank)
      (Badges.changes_apply_eq_nil hbase (tally_untally o) ds)
  have htraced : (s.run es).2.Traced (s.provenance none es) := Traced.run (p := none) h.empty.1 es
  cases hp : s.provenance none es with
  | none =>
    rw [hp] at htraced
    exact absurd (ho.symm.trans htraced) (by simp)
  | some p =>
    rw [hp] at htraced
    obtain ⟨o', ho', hreplay⟩ := htraced
    obtain rfl := Option.some.inj (ho.symm.trans ho')
    refine ⟨hsent, hinstalled, hsilent, p, rfl, ?_⟩
    rintro (hnone | hlast)
    · obtain ⟨hbefore, hafter⟩ := hsilent.1 hnone
      rw [← untally_of_zero hafter, untally_diagnosed, untally_of_zero hbefore]
    · exact Badges.diagnosed_of_replay hwell (List.getLast?_map.trans hlast) hreplay

/-- A class was expanded before the outline was made anew, and the method in it has an error. -/
theorem renewed_completeRebuild_nested :
    let d : Document := ⟨"file:a"⟩
    let leaf (kind : Kind) (name : String) (first last : Nat) : Rose Symbol :=
      node ⟨⟨kind, name⟩, none, .ofLines first last, .ofLines first first⟩ []
    let symbols := [leaf .classType "A" 0 20, leaf .method "f" 2 8]
    let es : List Event := [
      .updateDocument (some d),
      .completeRebuild ⟨d, 1⟩ symbols none,
      .viewportChanged (.ofLines 0 9),
      .updateDocument (some d),
      .completeRebuild ⟨d, 2⟩ symbols none,
      .diagnosticsChanged d [⟨.ofLines 3 3, some .error, none, none, ""⟩],
      .updateDocument (some d)]
    standard.Fresh ∧ standard.originAfter none es = some ⟨d, symbols, none⟩ ∧
      (standard.run es).2.IsCurrent ⟨d, 3⟩ ∧ ∃ o, (standard.run es).2.outline = some o ∧ Distinct o ∧ o.Dark ∧
        ((standard.run es).2.completeRebuild ⟨d, 3⟩ symbols none).1 =
          [.update ((o.items.flatMap fun i => badgeUpdates i.path i.tally.badge .blank) ++
            (Badges.none.apply o.untally ((standard.run es).2.rememberedFor d)).2.2)] ∧
        ((standard.run es).2.completeRebuild ⟨d, 3⟩ symbols none).2.outline =
          some (o.diagnosed ((standard.run es).2.rememberedFor d)) := by
  intro d leaf symbols es
  have hm : standard.originAfter none es = some ⟨d, symbols, none⟩ := by
    refine origin_eq_of_parts ?_
    simp only [es, originAfter, origin, step, completeRebuild, outlineOf, ofSymbols_eq_inserted]
    decide +kernel
  have hc : (standard.run es).2.IsCurrent ⟨d, 3⟩ := by
    simp only [es, run, step, completeRebuild, ofSymbols_eq_inserted]
    decide +kernel
  have hfit : (standard.run es).2.outline.any (fun o : Outline => Distinct o ∧ o.Dark) = true := by
    simp only [es, run, step, completeRebuild, ofSymbols_eq_inserted]
    decide +kernel
  obtain ⟨o, ho, hfit⟩ := Option.any_eq_true _ _ |>.1 hfit
  obtain ⟨hdistinct, hdark⟩ := of_decide_eq_true hfit
  obtain ⟨hsent, hinstalled, -⟩ :=
    renewed_completeRebuild (t := ⟨d, 3⟩) fresh_standard es hm ho hdistinct hdark hc
  exact ⟨fresh_standard, hm, hc, o, ho, hdistinct, hdark, hsent, hinstalled⟩

/-- A function has an error. When the outline is made anew of the same function, the badge goes off and on again. -/
theorem renewed_badge :
    let d : Document := ⟨"file:a"⟩
    let symbols : Forest Symbol := [node ⟨⟨.function, "f"⟩, none, .ofLines 0 9, .ofLines 0 0⟩ []]
    let error : Diagnostic := ⟨.ofLines 3 3, some .error, none, none, ""⟩
    let es : List Event := [
      .updateDocument (some d),
      .completeRebuild ⟨d, 1⟩ symbols none,
      .diagnosticsChanged d [error],
      .updateDocument (some d)]
    let s := (standard.run es).2
    let result := s.completeRebuild ⟨d, 2⟩ symbols none
    standard.Fresh ∧ standard.originAfter none es = some ⟨d, symbols, none⟩ ∧
      s.outline.any (fun o : Outline => Distinct o ∧ o.Dark) = true ∧ s.remembered = some (d, [error]) ∧
      s.IsCurrent ⟨d, 2⟩ ∧ ¬ (result.1 = [.update []] ∧ result.2.outline = s.outline) := by
  intro d symbols error es s result
  have hd : d.isSupported = true := by decide
  have hm : standard.originAfter none es = some ⟨d, symbols, none⟩ := by
    refine origin_eq_of_parts ?_
    simp only [es, originAfter, origin, updateDocument_of_isSupported _ hd, Option.any_some, hd]
    decide +kernel
  refine ⟨fresh_standard, hm, ?_, ?_, ?_, ?_⟩
  all_goals simp only [result, s, es, run, updateDocument_of_isSupported _ hd]
  all_goals decide +kernel

end Session

end SymbolOutline
