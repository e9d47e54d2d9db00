import SymbolOutline.Proofs.Following
import SymbolOutline.Proofs.Insertion
import SymbolOutline.Proofs.Sync

/-
What a session remembers beside its outline agrees with the outline (`coherent_run`). Without an
outline nothing is remembered; else every path that is remembered leads to an item, and the items are
in focus, in view, expanded and counted as the sets say.

Each set is emptied when the outline goes or another one comes, and follows what its own operation
does to the items. No operation on one of the sets touches what the others speak of.
-/

namespace SymbolOutline

open Forest Rose

namespace Outline

variable {ps : PathSet} {o o' : Outline}

/-- Every path of a set leads to an item. -/
def Leads (ps : PathSet) (o : Outline) : Prop := ∀ p ∈ ps, (o.item? p).isSome

theorem leads_empty (o : Outline) : Leads ∅ o := fun p hp => absurd hp (PathSet.not_mem_empty p)

theorem Leads.mapAll (h : Leads ps o) {f : Item → Item} (hf : ∀ i, (f i).key = i.key) :
    Leads ps (mapAll f o) := by
  intro p hp
  rw [item?_mapAll hf, Option.isSome_map]
  exact h p hp

theorem Leads.of_unlit (h : Leads ps o) (hu : o'.unlit = o.unlit) : Leads ps o' := by
  intro p hp
  have hsome : (item? o'.unlit p).isSome := by
    rw [hu]
    exact h.mapAll (f := Item.unlit) (fun _ => rfl) p hp
  rwa [Outline.unlit, item?_mapAll (f := Item.unlit) fun _ => rfl, Option.isSome_map] at hsome

/-- The paths of some items lead to them. -/
theorem leads_of_forall (ho : o.WellKeyed) (h : ∀ p ∈ ps, ∃ i ∈ o.items, i.path = p) : Leads ps o := by
  intro p hp
  rw [ho.item?_eq_some.2 (h p hp).choose_spec]
  rfl

theorem leads_inFocus (ho : o.WellKeyed) (cursors : List Lines) : Leads (o.inFocus cursors) o := by
  refine leads_of_forall ho fun p hp => ?_
  obtain ⟨i, hi, rfl⟩ := List.mem_map.1 (PathSet.mem_ofList.1 hp)
  obtain ⟨q, -, hi⟩ := List.mem_flatMap.1 hi
  exact ⟨i, underCursor_mem hi, rfl⟩

theorem leads_onLines (ho : o.WellKeyed) (q : Lines) : Leads (o.onLines q) o := by
  refine leads_of_forall ho fun p hp => ?_
  obtain ⟨i, hi, rfl⟩ := List.mem_map.1 (PathSet.mem_ofList.1 hp)
  exact ⟨i, inRange_mem hi, rfl⟩

theorem leads_aroundLines (ho : o.WellKeyed) (q : Lines) : Leads (o.aroundLines q) o := by
  intro p hp
  rcases PathSet.mem_insertAll.1 hp with hp | hp
  · obtain ⟨i, hi, rfl⟩ := List.mem_map.1 hp
    rw [ho.item?_eq_some.2 ⟨overlapping_mem hi, rfl⟩]
    rfl
  · exact leads_onLines ho q p hp

end Outline

open Outline

/-- The sets of a tracker and the memory of tallies lead to items of an outline, and what is in focus,
in view and expanded is so. -/
structure Held (t : Tracker) (b : Badges) (o : Outline) : Prop where
  focused_leads : Leads t.focused o
  inView_leads : Leads t.inView o
  expanded_leads : Leads t.expanded o
  touched_leads : Leads b.touched o
  focused : Marked .focused t.focused o
  inView : Marked .inView t.inView o
  expanded : Raised .expanded t.expanded o

namespace Held

variable {t : Tracker} {b : Badges} {o : Outline}

theorem focus (ho : o.WellKeyed) (h : Held t b o) (cursors : List Span) :
    Held (t.focus o cursors).1 b (t.focus o cursors).2.1 := by
  have hunlit := (t.retouched_focus o cursors).unlit
  rcases t.focus_cases o cursors with ⟨-, hs⟩ | ⟨-, hs⟩
  · rw [hs]
    exact h
  · rw [hs] at hunlit ⊢
    exact {
      focused_leads := (leads_inFocus ho _).of_unlit hunlit
      inView_leads := h.inView_leads.of_unlit hunlit
      expanded_leads := h.expanded_leads.of_unlit hunlit
      touched_leads := h.touched_leads.of_unlit hunlit
      focused := h.focused.shift lawful_focused ho _
      inView := h.inView.shift_other lawful_focused (fun _ _ => rfl) ho _ _
      expanded := h.expanded.shift_other lawful_focused (fun _ _ => rfl) ho _ _ }

/-- Items come into view and go, and nothing else happens to them. -/
theorem seen (ho : o.WellKeyed) (h : Held t b o) (q : Lines) :
    Held { t with inView := o.onLines q } b (shift .inView t.inView (o.onLines q) o).1 := by
  have hunlit := (retouched_shift shows_inView t.inView (o.onLines q) o).unlit
  exact {
    focused_leads := h.focused_leads.of_unlit hunlit
    inView_leads := (leads_onLines ho q).of_unlit hunlit
    expanded_leads := h.expanded_leads.of_unlit hunlit
    touched_leads := h.touched_leads.of_unlit hunlit
    focused := h.focused.shift_other lawful_inView (fun _ _ => rfl) ho _ _
    inView := h.inView.shift lawful_inView ho _
    expanded := h.expanded.shift_other lawful_inView (fun _ _ => rfl) ho _ _ }

/-- Items are expanded and collapsed again, and nothing else happens to them. -/
theorem opened (ho : o.WellKeyed) (h : Held t b o) {ps : PathSet} (hps : Leads ps o) :
    Held { t with expanded := ps } b (shift .expanded t.expanded ps o).1 := by
  have hunlit := (retouched_shift shows_expanded t.expanded ps o).unlit
  exact {
    focused_leads := h.focused_leads.of_unlit hunlit
    inView_leads := h.inView_leads.of_unlit hunlit
    expanded_leads := hps.of_unlit hunlit
    touched_leads := h.touched_leads.of_unlit hunlit
    focused := h.focused.shift_other lawful_expanded (fun _ _ => rfl) ho _ _
    inView := h.inView.shift_other lawful_expanded (fun _ _ => rfl) ho _ _
    expanded := h.expanded.shift lawful_expanded ho _ }

theorem view (ho : o.WellKeyed) (h : Held t b o) (visible : Span) :
    Held (t.view o visible).1 b (t.view o visible).2.1 := by
  have hseen := h.seen ho (linesOf visible)
  rcases t.view_cases o visible with ⟨-, hs⟩ | ⟨-, -, hs⟩ | ⟨-, hs⟩
  · rw [hs]
    exact h
  · rw [hs]
    exact hseen
  · have hunlit := (retouched_shift shows_inView t.inView (o.onLines (linesOf visible)) o).unlit
    rw [hs]
    exact hseen.opened (ho.of_unlit hunlit) ((leads_aroundLines ho _).of_unlit hunlit)

end Held

/-! ## Diagnostics that are put down -/

namespace Outline

theorem forall_items_mapAll {P : Bool → Path → Prop} {s : Switch} {o : Outline}
    (h : ∀ i ∈ o.items, P (s.get i) i.path) {f : Item → Item}
    (hf : ∀ i, s.get (f i) = s.get i ∧ (f i).path = i.path) :
    ∀ i ∈ Outline.items (Rose.mapAll f o), P (s.get i) i.path := by
  intro i hi
  rw [items_mapAll] at hi
  obtain ⟨j, hj, rfl⟩ := List.mem_map.1 hi
  rw [(hf j).1, (hf j).2]
  exact h j hj

theorem Marked.mapAll {s : Switch} {ps : PathSet} {o : Outline} (h : Marked s ps o) {f : Item → Item}
    (hf : ∀ i, s.get (f i) = s.get i ∧ (f i).path = i.path) : Marked s ps (Rose.mapAll f o) :=
  forall_items_mapAll (P := fun b p => b = true ↔ p ∈ ps) h hf

theorem Raised.mapAll {s : Switch} {ps : PathSet} {o : Outline} (h : Raised s ps o) {f : Item → Item}
    (hf : ∀ i, s.get (f i) = s.get i ∧ (f i).path = i.path) : Raised s ps (Rose.mapAll f o) :=
  forall_items_mapAll (P := fun b p => p ∈ ps → b = true) h hf

theorem map_snd_share_sublist (n : Nat) (found : List (Address × Severity)) :
    ((share n found).map Prod.snd).Sublist (found.map Prod.snd) := by
  induction found with
  | nil => exact .slnil
  | cons f found ih =>
    obtain ⟨a, s⟩ := f
    match a with
    | [] => exact ih.cons _
    | m :: a =>
      by_cases hm : m = n
      · have hshare : share n ((m :: a, s) :: found) = (a, s) :: share n found := by simp [share, hm]
        rw [hshare]
        exact ih.cons_cons s
      · have hshare : share n ((m :: a, s) :: found) = share n found := by simp [share, hm]
        rw [hshare]
        exact ih.cons s

/-- A path that is touched is that of an item, which counts something of what was found. -/
theorem exists_of_mem_touchedFrom {n : Nat} {found : List (Address × Severity)} {ts : Forest Item}
    {p : Path} (h : p ∈ touchedFrom n found ts) :
    ∃ i ∈ valuesAll ts, i.path = p ∧ ∃ resting : List (Address × Severity), resting ≠ [] ∧
      (resting.map Prod.snd).Sublist (found.map Prod.snd) ∧
      i.count resting ∈ valuesAll (tallyFrom n found ts) := by
  induction ts using induct_forest generalizing n found with
  | nil => cases h
  | cons i cs ts ihc ih =>
    -- a tree counts its share of what was found, and its children share that
    have hshare := map_snd_share_sublist n found
    rw [touchedFrom_cons] at h
    rw [tallyFrom_cons, valuesAll_cons, valuesAll_cons]
    rcases List.mem_append.1 h with h | h
    · by_cases hnil : share n found = []
      · rw [if_pos hnil] at h
        cases h
      · rw [if_neg hnil] at h
        rcases List.mem_cons.1 h with rfl | h
        · exact ⟨i, List.mem_cons_self .., rfl, _, hnil, hshare, List.mem_cons_self ..⟩
        · obtain ⟨j, hj, hp, resting, hne, hsub, hmem⟩ := ihc h
          exact ⟨j, List.mem_cons_of_mem _ (List.mem_append_left _ hj), hp, resting, hne,
            hsub.trans hshare, List.mem_cons_of_mem _ (List.mem_append_left _ hmem)⟩
    · obtain ⟨j, hj, hp, resting, hne, hsub, hmem⟩ := ih h
      exact ⟨j, List.mem_cons_of_mem _ (List.mem_append_right _ hj), hp, resting, hne, hsub,
        List.mem_cons_of_mem _ (List.mem_append_right _ hmem)⟩

theorem map_snd_rests (o : Outline) (before : Address) (ds : List (Span × Severity)) :
    (o.rests before ds).map Prod.snd = ds.map Prod.snd := by
  induction ds generalizing before with
  | nil => rfl
  | cons d ds ih =>
    rw [rests, List.map_cons, List.map_cons]
    congr 1
    exact ih _

end Outline

/-- Of a list of diagnostics, no more come to be counted than there are, all errors and warnings. -/
theorem Diagnostic.queue_spec (ds : List Diagnostic) :
    (queue ds).length ≤ ds.length ∧
      ∀ s ∈ (queue ds).map Prod.snd, s = .error ∨ s = .warning := by
  unfold queue
  constructor
  · rw [List.length_mergeSort]
    exact List.length_filterMap_le _ _
  · intro s hs
    obtain ⟨d, hd, rfl⟩ := List.mem_map.1 hs
    obtain ⟨e, -, he⟩ := List.mem_filterMap.1 (List.mem_mergeSort.1 hd)
    unfold grave? at he
    split at he
    · exact .inl (by rw [← Option.some.inj he])
    · exact .inr (by rw [← Option.some.inj he])
    · cases he

theorem eq_zero_of_ofNat_eq_zero {n : Nat} (hn : n < UInt32.size) (h : UInt32.ofNat n = 0) : n = 0 := by
  have := congrArg UInt32.toNat h
  rwa [UInt32.toNat_ofNat_of_lt' hn] at this

/-- What counts something of fewer diagnostics than a 32-bit word holds has a tally. -/
theorem Tally.add_ne_zero {resting : List (Address × Severity)} (hne : resting ≠ [])
    (hgrave : ∀ s ∈ resting.map Prod.snd, s = .error ∨ s = .warning)
    (hshort : resting.length < UInt32.size) : Tally.zero.add resting ≠ .zero := by
  intro hzero
  have hcount : ∀ p : Address × Severity → Bool, UInt32.ofNat (resting.countP p) = 0 →
      ∀ f ∈ resting, p f = false := by
    intro p hp
    have := eq_zero_of_ofNat_eq_zero (Nat.lt_of_le_of_lt List.countP_le_length hshort) hp
    simpa using List.countP_eq_zero.1 this
  have herrors := hcount _ (by simpa [add, zero] using congrArg Tally.errors hzero)
  have hwarnings := hcount _ (by simpa [add, zero] using congrArg Tally.warnings hzero)
  have herrorBelow := congrArg Tally.errorBelow hzero
  have hwarningBelow := congrArg Tally.warningBelow hzero
  simp only [add, zero, Bool.false_or, List.any_eq_false] at herrorBelow hwarningBelow
  -- the first of what rests here is here or below, and an error or a warning
  obtain ⟨f, hf⟩ := List.exists_mem_of_ne_nil resting hne
  obtain ⟨a, s⟩ := f
  have h1 := herrors _ hf
  have h2 := hwarnings _ hf
  have h3 := herrorBelow _ hf
  have h4 := hwarningBelow _ hf
  by_cases ha : a = []
  · rcases hgrave s (List.mem_map_of_mem hf) with rfl | rfl
    · simp [ha] at h1
    · simp [ha] at h2
  · rcases hgrave s (List.mem_map_of_mem hf) with rfl | rfl
    · simp [ha] at h3
    · simp [ha] at h4

namespace Badges

variable {b : Badges} {o : Outline}

/-- A path that is touched is that of an item, and the item has a tally if the diagnostics are fewer
than a 32-bit word holds. -/
theorem exists_of_mem_touched_apply (h : o.WellKeyed) (hb : b.Counted o) {ds : List Diagnostic}
    {p : Path} (hp : p ∈ (b.apply o ds).1.touched) :
    ∃ i ∈ (b.apply o ds).2.1.items, i.path = p ∧ (ds.length < UInt32.size → i.tally ≠ .zero) := by
  obtain ⟨i, hi, hpath, resting, hne, hsub, hmem⟩ := exists_of_mem_touchedFrom (PathSet.mem_ofList.1 hp)
  refine ⟨i.count resting, hmem, hpath, fun hds => ?_⟩
  obtain ⟨hlength, hgrave⟩ := Diagnostic.queue_spec ds
  rw [map_snd_rests] at hsub
  have hshort : resting.length ≤ ds.length := by
    have := hsub.length_le
    rw [List.length_map, List.length_map] at this
    exact Nat.le_trans this hlength
  -- all tallies have been wiped
  have hzero : i.tally = .zero := by
    rw [wipe_touched h hb, valuesAll_mapAll] at hi
    obtain ⟨j, -, rfl⟩ := List.mem_map.1 hi
    rfl
  show i.tally.add resting ≠ .zero
  rw [hzero]
  exact Tally.add_ne_zero hne (fun s hs => hgrave s (hsub.subset hs)) (Nat.lt_of_le_of_lt hshort hds)

/-- Every item whose path is remembered has a tally. -/
def Told (b : Badges) (o : Outline) : Prop := ∀ i ∈ o.items, i.path ∈ b.touched → i.tally ≠ .zero

theorem Told.of_unlit_eq {o' : Outline} (hb : b.Told o) (h : o'.unlit = o.unlit) : b.Told o' := by
  intro i hi hp
  obtain ⟨j, hj, hji⟩ := exists_of_unlit_eq h hi
  have htally : j.unlit.tally = i.unlit.tally := by rw [hji]
  have hpath : j.unlit.path = i.unlit.path := by rw [hji]
  rw [show i.path = j.path from hpath.symm] at hp
  rw [show i.tally = j.tally from htally.symm]
  exact hb j hj hp

theorem told_apply (h : o.WellKeyed) (hb : b.Counted o) {ds : List Diagnostic}
    (hds : ds.length < UInt32.size) : (b.apply o ds).1.Told (b.apply o ds).2.1 := by
  intro i hi hp
  obtain ⟨j, hj, hpath, htally⟩ := exists_of_mem_touched_apply h hb hp
  -- the path is that of one item only
  have hwell := wellKeyed_apply h hb ds
  have hitem := hwell.item?_eq_some.2 ⟨hi, rfl⟩
  rw [hwell.item?_eq_some.2 ⟨hj, hpath⟩] at hitem
  obtain rfl := Option.some.inj hitem
  exact htally hds

/-- Diagnostics are put down, and nothing else happens to the items. -/
theorem held_apply {t : Tracker} (h : o.WellKeyed) (hb : b.Counted o) (ht : Held t b o)
    (ds : List Diagnostic) : Held t (b.apply o ds).1 (b.apply o ds).2.1 := by
  have htouched : Leads (b.apply o ds).1.touched (b.apply o ds).2.1 := by
    refine leads_of_forall (wellKeyed_apply h hb ds) fun p hp => ?_
    obtain ⟨i, hi, hpath, -⟩ := exists_of_mem_touched_apply h hb hp
    exact ⟨i, hi, hpath⟩
  obtain ⟨resting, ho, -⟩ := apply_resting h hb ds
  rw [ho] at htouched ⊢
  exact {
    focused_leads := ht.focused_leads.mapAll fun _ => rfl
    inView_leads := ht.inView_leads.mapAll fun _ => rfl
    expanded_leads := ht.expanded_leads.mapAll fun _ => rfl
    touched_leads := htouched
    focused := ht.focused.mapAll fun _ => ⟨rfl, rfl⟩
    inView := ht.inView.mapAll fun _ => ⟨rfl, rfl⟩
    expanded := ht.expanded.mapAll fun _ => ⟨rfl, rfl⟩ }

theorem apply_ne_nil (h : o.WellKeyed) (hb : b.Counted o) (hne : o ≠ []) (ds : List Diagnostic) :
    (b.apply o ds).2.1 ≠ [] := by
  obtain ⟨resting, ho, -⟩ := apply_resting h hb ds
  rw [ho, mapAll_eq_map]
  exact fun h => hne (List.map_eq_nil_iff.1 h)

end Badges

/-! ## Sessions -/

namespace Session

variable {s s' : Session}

/-- What a session remembers agrees with its outline. -/
structure Coherent (s : Session) : Prop where
  /-- Without an outline nothing is remembered. -/
  absent : s.outline = none → s.marks = .none ∧ s.tracker.focused = ∅ ∧ s.tracker.inView = ∅ ∧
    s.tracker.expanded = ∅ ∧ s.badges.touched = ∅
  /-- An outline has items, and they are as the sets say. -/
  present : ∀ o, s.outline = some o → o ≠ [] ∧ Held s.tracker s.badges o

theorem coherent_clear (s : Session) (reason : Absence) : Coherent (s.step (.clear reason)).2 :=
  ⟨fun _ => ⟨rfl, rfl, rfl, rfl, rfl⟩, fun o ho => by cases ho⟩

theorem Coherent.of_some {o : Outline} (ho : s.outline = some o) (hne : o ≠ [])
    (h : Held s.tracker s.badges o) : Coherent s := by
  refine ⟨fun hn => (Option.some_ne_none o (ho.symm.trans hn)).elim, fun o' ho' => ?_⟩
  obtain rfl := Option.some.inj (ho.symm.trans ho')
  exact ⟨hne, h⟩

/-- What is neither outline nor memory nor marks does not matter. -/
theorem Coherent.congr (h : Coherent s) (ho : s'.outline = s.outline) (hm : s'.marks = s.marks)
    (hf : s'.tracker.focused = s.tracker.focused) (hv : s'.tracker.inView = s.tracker.inView)
    (he : s'.tracker.expanded = s.tracker.expanded) (hb : s'.badges = s.badges) : Coherent s' := by
  refine ⟨fun hn => ?_, fun o hs => ?_⟩
  · rw [hm, hf, hv, he, hb]
    exact h.absent (ho.symm.trans hn)
  · obtain ⟨hne, hheld⟩ := h.present o (ho.symm.trans hs)
    rw [hb]
    exact ⟨hne, {
      focused_leads := hf ▸ hheld.focused_leads
      inView_leads := hv ▸ hheld.inView_leads
      expanded_leads := he ▸ hheld.expanded_leads
      touched_leads := hheld.touched_leads
      focused := hf ▸ hheld.focused
      inView := hv ▸ hheld.inView
      expanded := he ▸ hheld.expanded }⟩

/-! ## A new outline -/

/-- Expansion is lent to a new outline, and nothing else happens to the items. -/
theorem lent_eq (s : Session) {new : Outline} (hk : new.WellKeyed) : ∃ f : Item → Item,
    (∀ i, ∃ b, f i = { i with expanded := b }) ∧ s.lent new = Rose.mapAll f new := by
  unfold lent
  cases s.outline with
  | none => exact ⟨id, fun i => ⟨i.expanded, rfl⟩, (mapAll_eq_self fun _ _ => rfl).symm⟩
  | some old => exact ⟨_, Item.lend_eq (old.changesTo new).expansion, lendExpansion_eq hk _⟩

/-- A new outline that expansion has been lent to. -/
structure Lent (o : Outline) : Prop where
  wellKeyed : o.WellKeyed
  ne_nil : o ≠ []
  dark : ∀ i ∈ o.items, i.focused = false ∧ i.inView = false
  counted : Badges.none.Counted o

theorem lent_outlineOf {symbols : Forest Symbol} {text : Option TextLines}
    (hd : Distinct (s.outlineOf symbols text)) (hne : s.outlineOf symbols text ≠ []) :
    Lent (s'.lent (s.outlineOf symbols text)) := by
  have hk : WellKeyed (s.outlineOf symbols text) := ⟨hd, located_ofForest _⟩
  obtain ⟨f, hf, hlent⟩ := lent_eq s' hk
  -- an item is fresh but for its expansion
  have hitems : ∀ i ∈ Outline.items (Rose.mapAll f (s.outlineOf symbols text)),
      i.focused = false ∧ i.inView = false ∧ i.tally = .zero := by
    intro i hi
    rw [items_mapAll] at hi
    obtain ⟨j, hj, rfl⟩ := List.mem_map.1 hi
    obtain ⟨key, detail, range, selection, p, rfl⟩ := fresh_of_mem_ofSymbols hj
    obtain ⟨b, hb⟩ := hf { Item.fresh key detail range selection with path := p }
    rw [hb]
    exact ⟨rfl, rfl, rfl⟩
  have hkey : ∀ i, (f i).key = i.key := fun i => by
    obtain ⟨b, hb⟩ := hf i
    rw [hb]
  have hpath : ∀ i, (f i).path = i.path := fun i => by
    obtain ⟨b, hb⟩ := hf i
    rw [hb]
  rw [hlent]
  exact {
    wellKeyed := hk.mapAll hkey hpath
    ne_nil := fun h => hne (List.map_eq_nil_iff.1 ((mapAll_eq_map f _).symm.trans h))
    dark := fun i hi => ⟨(hitems i hi).1, (hitems i hi).2.1⟩
    counted := fun i hi ht => absurd (hitems i hi).2.2 ht }

/-- Nothing of a new outline is remembered before diagnostics are put down. -/
theorem Lent.held {o : Outline} (h : Lent o) (t : Tracker) : Held t.reset .none o where
  focused_leads := leads_empty o
  inView_leads := leads_empty o
  expanded_leads := leads_empty o
  touched_leads := leads_empty o
  focused := fun i hi => by
    show i.focused = true ↔ i.path ∈ (∅ : PathSet)
    simp [(h.dark i hi).1]
  inView := fun i hi => by
    show i.inView = true ↔ i.path ∈ (∅ : PathSet)
    simp [(h.dark i hi).2]
  expanded := fun i _ hp => absurd hp (PathSet.not_mem_empty i.path)

/-! ## One event -/

/-- In the outline of a session siblings have different keys, and every item with a tally is
remembered. -/
def Keyed (s : Session) : Prop := ∀ o, s.outline = some o → o.WellKeyed ∧ s.badges.Counted o

theorem coherent_follows (hk : s.Keyed) (h : Coherent s)
    {move : Outline → Tracker × Outline × List Change}
    (hmove : ∀ o, o.WellKeyed → Held s.tracker s.badges o → Held (move o).1 s.badges (move o).2.1)
    (hunlit : ∀ o, (move o).2.1.unlit = o.unlit) {result : List Message × Session}
    (hf : s.Follows move result) : Coherent result.2 := by
  rcases hf with ⟨-, rfl⟩ | ⟨o, inboxes, ho, -, hs⟩
  · exact h
  · obtain ⟨hne, hheld⟩ := h.present o ho
    rw [hs]
    refine .of_some rfl (fun hnil => hne ?_) (hmove o (hk o ho).1 hheld)
    have := hunlit o
    rw [hnil, Outline.unlit, Outline.unlit, mapAll_eq_map, mapAll_eq_map] at this
    exact List.map_eq_nil_iff.1 this.symm

theorem coherent_diagnosticsChanged (hk : s.Keyed) (h : Coherent s) (d : Document)
    (ds : List Diagnostic) : Coherent (s.diagnosticsChanged d ds).2 := by
  rcases s.diagnosticsChanged_cases d ds with ⟨-, hs⟩ | ⟨o, inboxes, ho, -, -, hs⟩
  · rw [hs]
    exact h.congr rfl rfl rfl rfl rfl rfl
  · obtain ⟨hwell, hcounted⟩ := hk o ho
    obtain ⟨hne, hheld⟩ := h.present o ho
    rw [hs]
    exact .of_some rfl (Badges.apply_ne_nil hwell hcounted hne ds)
      (Badges.held_apply hwell hcounted hheld ds)

theorem coherent_completeRebuild (h : Coherent s) {t : Ticket} {symbols : Forest Symbol}
    {text : Option TextLines} (hd : s.IsCurrent t → Distinct (s.outlineOf symbols text)) :
    Coherent (s.completeRebuild t symbols text).2 := by
  rcases s.completeRebuild_cases t symbols text with ⟨-, hs⟩ | ⟨-, -, hs⟩ | ⟨hc, hne, hs⟩
  · rw [hs]
    exact h
  · rw [hs]
    exact coherent_clear _ _
  -- the sets are emptied, and the diagnostics of the document put down on the new outline
  · obtain ⟨shelf, inboxes, hi⟩ := install_spec { s with marks := s.scan text } t.document
      (s.outlineOf symbols text)
    have hlent : Lent ({ s with marks := s.scan text }.lent (s.outlineOf symbols text)) :=
      lent_outlineOf (hd hc) hne
    rw [hs, hi]
    exact .of_some rfl (Badges.apply_ne_nil hlent.wellKeyed hlent.counted hlent.ne_nil _)
      (Badges.held_apply hlent.wellKeyed hlent.counted (hlent.held s.tracker) _)

theorem coherent_step (hk : s.Keyed) (h : Coherent s) {e : Event} (hu : s.Unambiguous e) :
    Coherent (s.step e).2 := by
  cases e with
  | updateDocument document =>
    rcases s.updateDocument_cases document with ⟨-, reason, hs⟩ | ⟨d, -, -, hs⟩
    · rw [hs]
      exact coherent_clear s reason
    · rw [hs]
      exact h.congr rfl rfl rfl rfl rfl rfl
  | completeRebuild t symbols text => exact coherent_completeRebuild h hu
  | selectionChanged cursors =>
    exact coherent_follows hk h (fun o ho hheld => hheld.focus ho cursors)
      (fun o => (s.tracker.retouched_focus o cursors).unlit) (s.follows_selectionChanged cursors)
  | viewportChanged visible =>
    exact coherent_follows hk h (fun o ho hheld => hheld.view ho visible)
      (fun o => (s.tracker.retouched_view o visible).unlit) (s.follows_viewportChanged visible)
  | diagnosticsChanged d ds => exact coherent_diagnosticsChanged hk h d ds
  | setPin pin => exact h.congr rfl rfl rfl rfl rfl rfl
  | clear reason => exact coherent_clear s reason
  | changeDepth delta => exact h.congr rfl rfl rfl rfl rfl rfl
  | attachView => exact h.congr rfl rfl rfl rfl rfl rfl

/-! ## Tallies that are remembered -/

/-- Every item of the outline whose path is remembered for its tally has one. -/
def Tallied (s : Session) : Prop := ∀ o, s.outline = some o → s.badges.Told o

/-- What is remembered of tallies is so, and will be after diagnostics are put down again. -/
structure Told (s : Session) : Prop where
  fits : ∀ r, s.remembered = some r → r.2.length < UInt32.size
  tallied : s.Tallied

theorem Told.rememberedFor (h : Told s) (d : Document) :
    (s.rememberedFor d).length < UInt32.size := by
  unfold Session.rememberedFor
  cases hr : s.remembered with
  | none => exact Nat.zero_lt_succ _
  | some r =>
    obtain ⟨document, ds⟩ := r
    simp only
    split
    · exact h.fits _ hr
    · exact Nat.zero_lt_succ _

theorem tallied_clear (s : Session) (reason : Absence) : Tallied (s.step (.clear reason)).2 :=
  fun o ho => by cases ho

theorem tallied_follows (h : s.Tallied) {move : Outline → Tracker × Outline × List Change}
    (hunlit : ∀ o, (move o).2.1.unlit = o.unlit) {result : List Message × Session}
    (hf : s.Follows move result) : Tallied result.2 := by
  rcases hf with ⟨-, rfl⟩ | ⟨o, inboxes, ho, -, hs⟩
  · exact h
  · rw [hs]
    rintro _ ⟨⟩
    exact (h o ho).of_unlit_eq (hunlit o)

theorem tallied_diagnosticsChanged (hk : s.Keyed) (h : s.Tallied) (d : Document)
    {ds : List Diagnostic} (hds : ds.length < UInt32.size) :
    Tallied (s.diagnosticsChanged d ds).2 := by
  rcases s.diagnosticsChanged_cases d ds with ⟨-, hs⟩ | ⟨o, inboxes, ho, -, -, hs⟩
  · rw [hs]
    exact h
  · obtain ⟨hwell, hcounted⟩ := hk o ho
    rw [hs]
    rintro _ ⟨⟩
    exact Badges.told_apply hwell hcounted hds

theorem tallied_completeRebuild (h : Told s) {t : Ticket} {symbols : Forest Symbol}
    {text : Option TextLines} (hd : s.IsCurrent t → Distinct (s.outlineOf symbols text)) :
    Tallied (s.completeRebuild t symbols text).2 := by
  rcases s.completeRebuild_cases t symbols text with ⟨-, hs⟩ | ⟨-, -, hs⟩ | ⟨hc, hne, hs⟩
  · rw [hs]
    exact h.tallied
  · rw [hs]
    exact tallied_clear _ _
  · obtain ⟨shelf, inboxes, hi⟩ := install_spec { s with marks := s.scan text } t.document
      (s.outlineOf symbols text)
    have hlent : Lent ({ s with marks := s.scan text }.lent (s.outlineOf symbols text)) :=
      lent_outlineOf (hd hc) hne
    rw [hs, hi]
    rintro _ ⟨⟩
    exact Badges.told_apply hlent.wellKeyed hlent.counted (h.rememberedFor t.document)

theorem tallied_step (hk : s.Keyed) (h : Told s) {e : Event} (hu : s.Unambiguous e)
    (he : ∀ r, e.report? = some r → r.2.length < UInt32.size) : Tallied (s.step e).2 := by
  cases e with
  | updateDocument document =>
    rcases s.updateDocument_cases document with ⟨-, reason, hs⟩ | ⟨d, -, -, hs⟩
    · rw [hs]
      exact tallied_clear s reason
    · rw [hs]
      exact h.tallied
  | completeRebuild t symbols text => exact tallied_completeRebuild h hu
  | selectionChanged cursors =>
    exact tallied_follows h.tallied (fun o => (s.tracker.retouched_focus o cursors).unlit)
      (s.follows_selectionChanged cursors)
  | viewportChanged visible =>
    exact tallied_follows h.tallied (fun o => (s.tracker.retouched_view o visible).unlit)
      (s.follows_viewportChanged visible)
  | diagnosticsChanged d ds => exact tallied_diagnosticsChanged hk h.tallied d (he _ rfl)
  | setPin pin => exact h.tallied
  | clear reason => exact tallied_clear s reason
  | changeDepth delta => exact h.tallied
  | attachView => exact h.tallied

theorem told_step (hk : s.Keyed) (h : Told s) {e : Event} (hu : s.Unambiguous e)
    (he : ∀ r, e.report? = some r → r.2.length < UInt32.size) : Told (s.step e).2 := by
  refine ⟨fun r hr => ?_, tallied_step hk h hu he⟩
  rw [(s.frame_step e).2] at hr
  rcases Option.or_eq_some_iff.1 hr with hr | ⟨-, hr⟩
  · exact he r hr
  · exact h.fits r hr

/-! ## Runs -/

theorem agrees_run (v : View) (hv : InSync s v) (h : Coherent s) {es : List Event}
    (hu : s.AllUnambiguous es) :
    Coherent (s.run es).2 ∧ (s.run es).2.Keyed ∧
      (Told s → (∀ r ∈ reports es, r.2.length < UInt32.size) → Told (s.run es).2) := by
  induction es generalizing s v with
  | nil => exact ⟨h, hv.keyed, fun ht _ => ht⟩
  | cons e es ih =>
    obtain ⟨he, hes⟩ := hu
    obtain ⟨hcoherent, hkeyed, htold⟩ := ih _ (inSync_step hv he) (coherent_step hv.keyed h he) hes
    refine ⟨hcoherent, hkeyed, fun ht hreports => htold (told_step hv.keyed ht he fun r hr => ?_) ?_⟩
    · exact hreports r (List.mem_filterMap.2 ⟨e, List.mem_cons_self .., hr⟩)
    · intro r hr
      obtain ⟨e', he', hr⟩ := List.mem_filterMap.1 hr
      exact hreports r (List.mem_filterMap.2 ⟨e', List.mem_cons_of_mem _ he', hr⟩)

theorem Fresh.coherent (h : s.Fresh) : Coherent s ∧ Told s := by
  obtain ⟨settings, s₀, hs₀, hs⟩ := h
  unfold Session.new at hs₀
  split at hs₀
  · cases hs₀
  · cases hs₀
    rw [hs]
    exact ⟨⟨fun _ => ⟨rfl, rfl, rfl, rfl, rfl⟩, fun o ho => by cases ho⟩, fun r hr => (by cases hr),
      fun o ho => by cases ho⟩

/-- After every run, what the session remembers agrees with its outline, and every item with a tally is
remembered. The converse of the last holds too where a 32-bit word can count the diagnostics of each
report: a count of more may come round to nothing. -/
theorem coherent_run (h : s.Fresh) {es : List Event} (hu : s.AllUnambiguous es) :
    Coherent (s.run es).2 ∧ ∀ o, (s.run es).2.outline = some o → ∀ i ∈ o.items,
      (i.tally ≠ .zero → i.path ∈ (s.run es).2.badges.touched) ∧
      ((∀ r ∈ reports es, r.2.length < UInt32.size) → i.path ∈ (s.run es).2.badges.touched →
        i.tally ≠ .zero) := by
  obtain ⟨hcoherent, hkeyed, htold⟩ := agrees_run _ (h.inSync none) h.coherent.1 hu
  refine ⟨hcoherent, fun o ho i hi => ⟨(hkeyed o ho).2 i hi, fun hreports => ?_⟩⟩
  exact (htold h.coherent.2 hreports).tallied o ho i hi

/-- A run in which entries come into focus and into view, a pin is set, an error is reported, and the
outline is made anew. -/
theorem coherent_run_pinned :
    let leaf (name : String) (first last : Nat) : Rose Symbol :=
      node ⟨⟨.function, name⟩, none, .ofLines first last, .ofLines first first⟩ []
    let d : Document := ⟨"file:a"⟩
    let es : List Event := [
      .updateDocument (some d),
      .completeRebuild ⟨d, 1⟩ [leaf "f" 0 9, leaf "g" 12 13] none,
      .selectionChanged [.ofLines 2 2],
      .viewportChanged (.ofLines 0 20),
      .setPin .pinned,
      .diagnosticsChanged d [⟨.ofLines 3 3, some .error, none, none, ""⟩],
      .completeRebuild ⟨d, 1⟩ [leaf "g" 0 4, leaf "f" 5 9] none,
      .viewportChanged (.ofLines 5 9)]
    standard.Fresh ∧ standard.AllUnambiguous es ∧
      Coherent (standard.run es).2 ∧ ∀ o, (standard.run es).2.outline = some o → ∀ i ∈ o.items,
        (i.tally ≠ .zero → i.path ∈ (standard.run es).2.badges.touched) ∧
        ((∀ r ∈ reports es, r.2.length < UInt32.size) →
          i.path ∈ (standard.run es).2.badges.touched → i.tally ≠ .zero) := by
  intro leaf d es
  have hu : standard.AllUnambiguous es := by
    refine .of_forall fun t symbols text h => ?_
    simp only [es, List.mem_cons, Event.completeRebuild.injEq, reduceCtorEq, List.not_mem_nil,
      false_or, or_false] at h
    rcases h with ⟨-, rfl, rfl⟩ | ⟨-, rfl, rfl⟩ <;> rw [outlineOf, ofSymbols_eq_inserted] <;> decide +kernel
  exact ⟨fresh_standard, hu, coherent_run fresh_standard hu⟩

end Session

end SymbolOutline
