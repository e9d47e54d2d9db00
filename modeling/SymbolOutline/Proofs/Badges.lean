import SymbolOutline.Outline.Badges
import SymbolOutline.Proofs.View

/-
Putting down diagnostics. Where siblings have different keys, and every item with a tally is
remembered, an item counts what rests at or below its path and changes in nothing else
(`apply_resting`); the changes that are reported do to the rows what happens to the items
(`foldl_applyTo_apply`), and every item with a tally is remembered again (`counted_apply`).
-/

namespace SymbolOutline

open Forest Rose

/-- An item without diagnostics. -/
def Item.untally (i : Item) : Item := { i with tally := .zero }

/-- An item with more diagnostics. -/
def Item.count (found : List (Outline.Address × Severity)) (i : Item) : Item :=
  { i with tally := i.tally.add found }

@[simp] theorem Tally.add_nil (t : Tally) : t.add [] = t := by
  simp [Tally.add]

theorem PathSet.nodup (s : PathSet) : s.toList.Nodup := by
  refine s.sorted.imp fun {p q} hpq hp => ?_
  subst hp
  exact Path.lt_irrefl p hpq

namespace Outline

/-! ## What rests where -/

@[simp] theorem share_nil (n : Nat) : share n [] = [] := rfl

theorem tallyFrom_cons (n : Nat) (found : List (Address × Severity)) (i : Item)
    (cs ts : Forest Item) :
    tallyFrom n found (node i cs :: ts) =
      node (i.count (share n found)) (tallyFrom 0 (share n found) cs) ::
        tallyFrom (n + 1) found ts := rfl

theorem touchedFrom_cons (n : Nat) (found : List (Address × Severity)) (i : Item)
    (cs ts : Forest Item) :
    touchedFrom n found (node i cs :: ts) =
      (if share n found = [] then [] else i.path :: touchedFrom 0 (share n found) cs) ++
        touchedFrom (n + 1) found ts := rfl

theorem touchedFrom_nil (n : Nat) (ts : Forest Item) : touchedFrom n [] ts = [] := by
  induction ts generalizing n with
  | nil => rfl
  | cons t ts ih =>
    obtain ⟨i, cs⟩ := t
    rw [touchedFrom_cons, if_pos (share_nil n), ih]; rfl

theorem mapAll_untally_tallyFrom (n : Nat) (found : List (Address × Severity)) (ts : Forest Item) :
    mapAll Item.untally (tallyFrom n found ts) = mapAll Item.untally ts := by
  induction ts using induct_forest generalizing n found with
  | nil => rfl
  | cons i cs ts ihc ih =>
    rw [tallyFrom_cons, mapAll_cons, mapAll_cons, map_node, map_node, ihc, ih]; rfl

/-- Each item counts what rests at or below its path, and is touched if anything does. -/
theorem tallyFrom_eq {base : Path} {ts : Forest Item} (hd : Distinct ts) (hl : Located base ts)
    (n : Nat) (found : List (Address × Severity)) :
    ∃ resting : Path → List (Address × Severity),
      tallyFrom n found ts = mapAll (fun i => i.count (resting i.path)) ts ∧
      ∀ p, p ∈ touchedFrom n found ts ↔ ∃ i ∈ valuesAll ts, i.path = p ∧ resting i.path ≠ [] := by
  induction ts using induct_forest generalizing base n found with
  | nil => exact ⟨fun _ => [], rfl, fun p => by simp [touchedFrom]⟩
  | cons i cs ts ihc ih =>
    obtain ⟨hi, hlc, hlt⟩ := located_cons.1 hl
    obtain ⟨hk, hdc, hdt⟩ := distinct_cons.1 hd
    obtain ⟨below, hbelow, htbelow⟩ := ihc hdc hlc 0 (share n found)
    obtain ⟨beside, hbeside, htbeside⟩ := ih hdt hlt (n + 1) found
    -- the path of the item is a proper prefix of the paths below it, and of no path beside it
    have hcs : ∀ j ∈ valuesAll cs, j.path ≠ i.path ∧ i.path <+: j.path := by
      intro j hj
      rw [hi]
      refine ⟨path_ne_base hlc hj, ?_⟩
      obtain ⟨t, -, q, hq⟩ := path_of_mem hlc hj
      exact ⟨t.key :: q, hq.symm⟩
    have hts : ∀ j ∈ valuesAll ts, j.path ≠ i.path ∧ ¬ i.path <+: j.path := by
      intro j hj
      rw [hi]
      refine ⟨path_ne_of_key_ne hlt hj hk [], ?_⟩
      rintro ⟨q, hq⟩
      exact path_ne_of_key_ne hlt hj hk q (by rw [← hq, List.append_assoc]; rfl)
    -- so one function of paths speaks for all three
    obtain ⟨resting, hhere, hc, ht⟩ : ∃ resting : Path → List (Address × Severity),
        resting i.path = share n found ∧ (∀ j ∈ valuesAll cs, resting j.path = below j.path) ∧
          ∀ j ∈ valuesAll ts, resting j.path = beside j.path := by
      refine ⟨fun p => if p = i.path then share n found else if i.path <+: p then below p else beside p,
        if_pos rfl, fun j hj => ?_, fun j hj => ?_⟩
      · simp only [if_neg (hcs j hj).1, if_pos (hcs j hj).2]
      · simp only [if_neg (hts j hj).1, if_neg (hts j hj).2]
    refine ⟨resting, ?_, fun p => ?_⟩
    · have hbelow' : mapAll (fun j => j.count (below j.path)) cs =
          mapAll (fun j => j.count (resting j.path)) cs := mapAll_congr fun j hj => by rw [hc j hj]
      have hbeside' : mapAll (fun j => j.count (beside j.path)) ts =
          mapAll (fun j => j.count (resting j.path)) ts := mapAll_congr fun j hj => by rw [ht j hj]
      rw [tallyFrom_cons, mapAll_cons, map_node, hbelow, hbeside, hhere, hbelow', hbeside']
    · have hbelow' : p ∈ touchedFrom 0 (share n found) cs ↔
          ∃ j ∈ valuesAll cs, j.path = p ∧ resting j.path ≠ [] := by
        rw [htbelow]
        exact exists_congr fun j => and_congr_right fun hj => by rw [hc j hj]
      have hbeside' : p ∈ touchedFrom (n + 1) found ts ↔
          ∃ j ∈ valuesAll ts, j.path = p ∧ resting j.path ≠ [] := by
        rw [htbeside]
        exact exists_congr fun j => and_congr_right fun hj => by rw [ht j hj]
      rw [touchedFrom_cons, List.mem_append, hbeside', valuesAll_cons]
      simp only [List.mem_cons, List.mem_append, or_and_right, exists_or, exists_eq_left, ← or_assoc]
      refine or_congr ?_ Iff.rfl
      rw [hhere, ← hbelow']
      split
      · rename_i hnil
        rw [hnil, touchedFrom_nil]
        simp
      · rename_i hne
        simp [hne, eq_comm]

/-! ## Updates of badges -/

theorem mem_badgeUpdates {p : Path} {old new : Badge} {c : Change} (h : c ∈ badgeUpdates p old new) :
    c.path = p ∧ c.isStructural = false := by
  unfold badgeUpdates at h
  rcases List.mem_append.1 h with h | h <;> split at h
  · cases h
  · obtain rfl := List.mem_singleton.1 h
    exact ⟨rfl, rfl⟩
  · cases h
  · obtain rfl := List.mem_singleton.1 h
    exact ⟨rfl, rfl⟩

/-- The row of an item shows another badge after the updates from its own badge to that one. -/
theorem foldl_receive_badgeUpdates (i : Item) (new : Tally) :
    (badgeUpdates i.path i.tally.badge new.badge).foldl (Row.receive i.path) i.row =
      Item.row { i with tally := new } := by
  have severity : (if i.tally.badge.severity = new.badge.severity then []
      else [.update i.path .severity (.severity new.badge.severity)] : List Change).foldl
        (Row.receive i.path) i.row = { i.row with severity := new.badge.severity } := by
    split
    · rename_i h
      rw [← h]; rfl
    · exact if_pos rfl
  unfold badgeUpdates
  rw [List.foldl_append, severity]
  split
  · rename_i h
    simp [Item.row, h]
  · exact if_pos rfl

end Outline

theorem Row.receive_of_path_ne {p : Path} {r : Row} {c : Change} (h : c.path ≠ p) :
    r.receive p c = r := by
  cases c with
  | update q property value => exact if_neg fun hp => h hp.symm
  | _ => rfl

theorem Row.foldl_receive_of_path_ne {p : Path} {r : Row} {cs : List Change}
    (h : ∀ c ∈ cs, c.path ≠ p) : cs.foldl (Row.receive p) r = r := by
  induction cs with
  | nil => rfl
  | cons c cs ih =>
    rw [List.foldl_cons, Row.receive_of_path_ne (h c (List.mem_cons_self ..)),
      ih fun d hd => h d (List.mem_cons_of_mem _ hd)]

/-- Of changes made path by path, a row receives those made for its own path. -/
theorem Row.foldl_receive_flatMap {ps : List Path} (hn : ps.Nodup) {f : Path → List Change}
    (hf : ∀ p, ∀ c ∈ f p, c.path = p) (p : Path) (r : Row) :
    (ps.flatMap f).foldl (Row.receive p) r = if p ∈ ps then (f p).foldl (Row.receive p) r else r := by
  induction ps with
  | nil => rfl
  | cons q ps ih =>
    obtain ⟨hq, hn⟩ := List.nodup_cons.1 hn
    rw [List.flatMap_cons, List.foldl_append]
    by_cases hpq : p = q
    · subst hpq
      rw [if_pos (List.mem_cons_self ..)]
      refine Row.foldl_receive_of_path_ne fun c hc => ?_
      obtain ⟨s, hs, hc⟩ := List.mem_flatMap.1 hc
      rw [hf s c hc]
      exact fun h => hq (h ▸ hs)
    · have hother : (f q).foldl (Row.receive p) r = r :=
        Row.foldl_receive_of_path_ne fun c hc => by rw [hf q c hc]; exact fun h => hpq h.symm
      rw [hother, ih hn]
      simp [hpq]

namespace Badges

variable {b : Badges} {o : Outline}

/-! ## Putting down diagnostics -/

/-- Every item with a tally is remembered. -/
def Counted (b : Badges) (o : Outline) : Prop :=
  ∀ i ∈ o.items, i.tally ≠ .zero → i.path ∈ b.touched

theorem counted_none (hz : ∀ i ∈ o.items, i.tally = .zero) : Badges.none.Counted o :=
  fun i hi ht => absurd (hz i hi) ht

/-- Of outlines that differ only in expansion, view and focus, the one has the items of the other but
for these. -/
theorem exists_of_unlit_eq {o' : Outline} (h : o'.unlit = o.unlit) {i : Item} (hi : i ∈ o'.items) :
    ∃ j ∈ o.items, j.unlit = i.unlit := by
  have hmem : i.unlit ∈ valuesAll o.unlit := by
    rw [← h, Outline.unlit, valuesAll_mapAll]
    exact List.mem_map_of_mem hi
  rw [Outline.unlit, valuesAll_mapAll] at hmem
  exact List.mem_map.1 hmem

theorem Counted.of_unlit_eq {o' : Outline} (hb : b.Counted o) (h : o'.unlit = o.unlit) :
    b.Counted o' := by
  intro i hi ht
  obtain ⟨j, hj, hji⟩ := exists_of_unlit_eq h hi
  have htally : j.unlit.tally = i.unlit.tally := by rw [hji]
  have hpath : j.unlit.path = i.unlit.path := by rw [hji]
  rw [show i.path = j.path from hpath.symm]
  exact hb j hj fun h => ht (htally.symm.trans h)

theorem wipe_eq (h : o.WellKeyed) (ps : List Path) :
    Outline.wipe ps o = mapAll (fun i => if i.path ∈ ps then i.untally else i) o := by
  induction ps generalizing o with
  | nil => exact (mapAll_eq_self fun i _ => if_neg List.not_mem_nil).symm
  | cons p ps ih =>
    have hp : (o.modifyItem Item.untally p).WellKeyed :=
      h.modifyItem (f := Item.untally) (fun _ => rfl) (fun _ => rfl) p
    show Outline.wipe ps (o.modifyItem Item.untally p) = _
    rw [ih hp, h.modifyItem_eq, mapAll_mapAll]
    refine mapAll_congr fun i _ => ?_
    by_cases hi : i.path = p
    · simp [hi, Item.untally]
    · simp [hi]

theorem untally_of_not_mem (hb : b.Counted o) {i : Item} (hi : i ∈ o.items)
    (h : i.path ∉ b.touched) : i.untally = i ∧ i.tally.badge = .blank := by
  have ht : i.tally = .zero := Decidable.byContradiction fun ht => h (hb i hi ht)
  constructor
  · unfold Item.untally
    rw [← ht]
  · rw [ht]; rfl

theorem wipe_touched (h : o.WellKeyed) (hb : b.Counted o) :
    Outline.wipe b.touched.toList o = mapAll Item.untally o := by
  rw [wipe_eq h]
  refine mapAll_congr fun i hi => ?_
  split
  · rfl
  · rename_i hp
    exact (untally_of_not_mem hb hi hp).1.symm

/-- Each item ends up with the tally of what rests at or below its path, and is remembered if
anything does. -/
theorem apply_resting (h : o.WellKeyed) (hb : b.Counted o) (ds : List Diagnostic) :
    ∃ resting : Path → List (Outline.Address × Severity),
      (b.apply o ds).2.1 = mapAll (fun i => i.untally.count (resting i.path)) o ∧
      ∀ i ∈ o.items, i.path ∈ (b.apply o ds).1.touched ↔ resting i.path ≠ [] := by
  have hw : Outline.WellKeyed (mapAll Item.untally o) := h.mapAll (fun _ => rfl) (fun _ => rfl)
  obtain ⟨resting, hrest, htouch⟩ := Outline.tallyFrom_eq hw.distinct hw.located 0
    (Outline.rests (mapAll Item.untally o) [] (Diagnostic.queue ds))
  refine ⟨resting, ?_, fun i hi => ?_⟩
  · show Outline.tallyFrom 0 (Outline.rests _ _ _) _ = _
    rw [wipe_touched h hb, hrest, mapAll_mapAll]; rfl
  · show i.path ∈ PathSet.ofList (Outline.touchedFrom 0 (Outline.rests _ _ _) _) ↔ _
    rw [wipe_touched h hb, PathSet.mem_ofList, htouch, valuesAll_mapAll]
    constructor
    · rintro ⟨j, -, hj, hne⟩
      rwa [hj] at hne
    · exact fun hne => ⟨i.untally, List.mem_map_of_mem hi, rfl, hne⟩

theorem wellKeyed_apply (h : o.WellKeyed) (hb : b.Counted o) (ds : List Diagnostic) :
    (b.apply o ds).2.1.WellKeyed := by
  obtain ⟨resting, ho, -⟩ := apply_resting h hb ds
  rw [ho]
  exact h.mapAll (fun _ => rfl) (fun _ => rfl)

theorem counted_apply (h : o.WellKeyed) (hb : b.Counted o) (ds : List Diagnostic) :
    (b.apply o ds).1.Counted (b.apply o ds).2.1 := by
  obtain ⟨resting, ho, htouched⟩ := apply_resting h hb ds
  intro i hi ht
  rw [ho, Outline.items, valuesAll_mapAll] at hi
  obtain ⟨j, hj, rfl⟩ := List.mem_map.1 hi
  refine (htouched j hj).2 fun hnil => ht ?_
  rw [hnil]
  exact Tally.add_nil _

/-! ## The changes that are reported -/

theorem badge?_of_mem (h : o.WellKeyed) {i : Item} (hi : i ∈ o.items) :
    o.badge? i.path = some i.tally.badge := by
  rw [Outline.badge?, h.item?_eq_some.2 ⟨hi, rfl⟩]; rfl

/-- The remembered paths that still lead to an item. -/
def known (b : Badges) (o : Outline) : List Path :=
  b.touched.toList.filter fun p => (o.badge? p).isSome

theorem mem_known (h : o.WellKeyed) {i : Item} (hi : i ∈ o.items) :
    i.path ∈ b.known o ↔ i.path ∈ b.touched := by
  unfold known
  rw [List.mem_filter, badge?_of_mem h hi]
  simp [PathSet.mem_def]

/-- The changes that are reported about one path. -/
def updatesAt (b : Badges) (o : Outline) (ds : List Diagnostic) (p : Path) : List Change :=
  match (b.apply o ds).2.1.badge? p with
  | Option.none => []
  | some new =>
    Outline.badgeUpdates p (if p ∈ b.known o then (o.badge? p).getD .blank else .blank) new

theorem changes_apply (b : Badges) (o : Outline) (ds : List Diagnostic) :
    (b.apply o ds).2.2 =
      ((b.apply o ds).1.touched.insertAll (b.known o)).toList.flatMap (b.updatesAt o ds) := rfl

theorem mem_updatesAt {ds : List Diagnostic} {p : Path} {c : Change}
    (h : c ∈ b.updatesAt o ds p) : c.path = p ∧ c.isStructural = false := by
  unfold updatesAt at h
  split at h
  · cases h
  · exact Outline.mem_badgeUpdates h

theorem updatesAt_of_mem (h : o.WellKeyed) (hb : b.Counted o) (ds : List Diagnostic) {i j : Item}
    (hi : i ∈ o.items) (hj : j ∈ (b.apply o ds).2.1.items) (hp : j.path = i.path) :
    b.updatesAt o ds i.path = Outline.badgeUpdates i.path i.tally.badge j.tally.badge := by
  have hnew : (b.apply o ds).2.1.badge? i.path = some j.tally.badge :=
    hp ▸ badge?_of_mem (wellKeyed_apply h hb ds) hj
  have hold : (if i.path ∈ b.known o then (o.badge? i.path).getD .blank else .blank) =
      i.tally.badge := by
    split
    · rw [badge?_of_mem h hi]; rfl
    · rename_i hk
      exact (untally_of_not_mem hb hi fun hp => hk ((mem_known h hi).2 hp)).2.symm
  unfold updatesAt
  simp only [hnew, hold]

/-- Only updates are reported. -/
theorem isStructural_apply (b : Badges) (o : Outline) (ds : List Diagnostic) :
    ∀ c ∈ (b.apply o ds).2.2, c.isStructural = false := by
  intro c hc
  rw [changes_apply] at hc
  obtain ⟨p, -, hc⟩ := List.mem_flatMap.1 hc
  exact (mem_updatesAt hc).2

/-- The reported changes do to the rows what putting down diagnostics does to the items. -/
theorem foldl_applyTo_apply (h : o.WellKeyed) (hb : b.Counted o) (ds : List Diagnostic) :
    (b.apply o ds).2.2.foldl View.applyTo (rows o) = rows (b.apply o ds).2.1 := by
  obtain ⟨resting, ho, htouched⟩ := apply_resting h hb ds
  show (b.apply o ds).2.2.foldl View.applyTo (mapAll Item.row o) = mapAll Item.row (b.apply o ds).2.1
  rw [View.foldl_applyTo_updates h (fun _ => rfl) (isStructural_apply b o ds)]
  have hrows : mapAll Item.row (b.apply o ds).2.1 =
      mapAll (fun i => (i.untally.count (resting i.path)).row) o := by
    rw [ho, mapAll_mapAll]; rfl
  rw [hrows]
  refine mapAll_congr fun i hi => ?_
  rw [changes_apply, Row.foldl_receive_flatMap (PathSet.nodup _) fun p c hc => (mem_updatesAt hc).1]
  split
  · -- the item is or was remembered, and its badge is made the new one
    have hj : i.untally.count (resting i.path) ∈ (b.apply o ds).2.1.items := by
      rw [ho, Outline.items, valuesAll_mapAll]
      exact List.mem_map_of_mem hi
    rw [updatesAt_of_mem h hb ds hi hj rfl]
    exact Outline.foldl_receive_badgeUpdates i _
  · -- the item neither is nor was remembered, and has no tally
    rename_i hnot
    rw [← PathSet.mem_def, PathSet.mem_insertAll, mem_known h hi, htouched i hi] at hnot
    obtain ⟨hsame, -⟩ := untally_of_not_mem hb hi fun hp => hnot (.inl hp)
    have hnil : resting i.path = [] := Decidable.byContradiction fun hne => hnot (.inr hne)
    rw [hnil, hsame]
    unfold Item.count
    rw [Tally.add_nil]

end Badges

end SymbolOutline
