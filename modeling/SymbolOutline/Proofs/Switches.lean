import SymbolOutline.Proofs.Tracker

/-
Switches of the items of an outline. Moving a switch from one set of paths to another sets it where
the new set says, and only there, if it was set where the old set says (`shift_eq_mapAll`). Every
report of it is of a switch that was the other way (`toggles_shift`). What a query finds are items of
the outline (`search_mem`), and the same items whatever is switched on (`search_mapAll`).
-/

namespace SymbolOutline

open Forest Rose

namespace Outline

/-! ## Switches that are what they were last set to -/

/-- A switch is what it was last set to. Setting it leaves alone what an item is found by. -/
structure Switch.Lawful (s : Switch) : Prop where
  get_set : ∀ on i, s.get (s.set on i) = on
  set_get : ∀ i, s.set (s.get i) i = i
  set_set : ∀ on off i, s.set on (s.set off i) = s.set on i
  key : ∀ on i, (s.set on i).key = i.key
  path : ∀ on i, (s.set on i).path = i.path

theorem lawful_focused : Switch.focused.Lawful :=
  ⟨fun _ _ => rfl, fun _ => rfl, fun _ _ _ => rfl, fun _ _ => rfl, fun _ _ => rfl⟩

theorem lawful_inView : Switch.inView.Lawful :=
  ⟨fun _ _ => rfl, fun _ => rfl, fun _ _ _ => rfl, fun _ _ => rfl, fun _ _ => rfl⟩

theorem lawful_expanded : Switch.expanded.Lawful :=
  ⟨fun _ _ => rfl, fun _ => rfl, fun _ _ _ => rfl, fun _ _ => rfl, fun _ _ => rfl⟩

/-- A switch is on for just those items of an outline whose paths are in a set. -/
def Marked (s : Switch) (ps : PathSet) (o : Outline) : Prop :=
  ∀ i ∈ o.items, s.get i = true ↔ i.path ∈ ps

theorem items_mapAll (f : Item → Item) (o : Outline) : items (mapAll f o) = o.items.map f :=
  valuesAll_mapAll f o

variable {s : Switch} {o : Outline}

theorem turn_eq_mapAll (hs : s.Lawful) (h : o.WellKeyed) (on : Bool) (p : Path) :
    (turn s on p o).1 = mapAll (fun i => if i.path = p then s.set on i else i) o := by
  unfold turn
  cases hp : o.item? p with
  | none =>
    -- no item has the path
    refine (mapAll_eq_self fun i hi => if_neg fun hpath => ?_).symm
    rw [h.item?_eq_some.2 ⟨hi, hpath⟩] at hp
    cases hp
  | some i =>
    simp only
    split
    · next hon =>
      -- the one item that has the path is as it is to be
      refine (mapAll_eq_self fun j hj => ?_).symm
      split
      · next hpath =>
        obtain rfl : i = j := Option.some.inj (hp.symm.trans (h.item?_eq_some.2 ⟨hj, hpath⟩))
        rw [← hon, hs.set_get]
      · rfl
    · exact h.modifyItem_eq p

theorem turnAll_eq_mapAll (hs : s.Lawful) (h : o.WellKeyed) (on : Bool) (ps : List Path) :
    (turnAll s on ps o).1 = mapAll (fun i => if i.path ∈ ps then s.set on i else i) o := by
  induction ps generalizing o with
  | nil => exact (mapAll_eq_self fun i _ => if_neg List.not_mem_nil).symm
  | cons p ps ih =>
    have hone := turn_eq_mapAll hs h on p
    have hwell : WellKeyed (turn s on p o).1 := by
      rw [hone]
      refine h.mapAll (fun i => ?_) fun i => ?_
      · split
        · exact hs.key on i
        · rfl
      · split
        · exact hs.path on i
        · rfl
    rw [turnAll, ih hwell, hone, mapAll_mapAll]
    refine mapAll_congr fun i _ => ?_
    simp only [Function.comp_apply, List.mem_cons]
    by_cases hp : i.path = p
    · subst hp
      by_cases hps : i.path ∈ ps
      · simp [hps, hs.path, hs.set_set]
      · simp [hps, hs.path]
    · simp [hp]

/-- Moving a switch from one set to another turns it on for what comes into the set, off for what
goes, and leaves all else alone. -/
theorem shift_eq (hs : s.Lawful) (h : o.WellKeyed) (before after : PathSet) :
    (shift s before after o).1 =
      mapAll (fun i => if i.path ∈ after ∧ i.path ∉ before then s.set true i
        else if i.path ∈ before ∧ i.path ∉ after then s.set false i else i) o := by
  have hoff := turnAll_eq_mapAll hs h false (before.diff after).toList
  have hwell : WellKeyed (turnAll s false (before.diff after).toList o).1 := by
    rw [hoff]
    refine h.mapAll (fun i => ?_) fun i => ?_
    · split
      · exact hs.key false i
      · rfl
    · split
      · exact hs.path false i
      · rfl
  unfold shift
  simp only
  rw [turnAll_eq_mapAll hs hwell, hoff, mapAll_mapAll]
  refine mapAll_congr fun i _ => ?_
  simp only [Function.comp_apply, ← PathSet.mem_def, PathSet.mem_diff]
  by_cases hb : i.path ∈ before <;> by_cases ha : i.path ∈ after <;> simp [hb, ha, hs.path]

theorem shift_eq_mapAll (hs : s.Lawful) (h : o.WellKeyed) {before : PathSet} (hm : Marked s before o)
    (after : PathSet) :
    (shift s before after o).1 = mapAll (fun i => s.set (decide (i.path ∈ after)) i) o := by
  rw [shift_eq hs h]
  refine mapAll_congr fun i hi => ?_
  have hget := hm i hi
  have hself := hs.set_get i
  by_cases hb : i.path ∈ before <;> by_cases ha : i.path ∈ after
  · rw [hget.2 hb] at hself
    simp [hb, ha, hself]
  · simp [hb, ha]
  · simp [hb, ha]
  · rw [Bool.eq_false_iff.2 fun h => hb (hget.1 h)] at hself
    simp [hb, ha, hself]

theorem Marked.shift (hs : s.Lawful) (h : o.WellKeyed) {before : PathSet} (hm : Marked s before o)
    (after : PathSet) : Marked s after (shift s before after o).1 := by
  intro i hi
  rw [shift_eq_mapAll hs h hm, items_mapAll] at hi
  obtain ⟨j, -, rfl⟩ := List.mem_map.1 hi
  rw [hs.get_set, hs.path, decide_eq_true_iff]

/-- Where a switch is set as a set says, setting it so changes nothing. -/
theorem Marked.set_eq_self (hs : s.Lawful) {ps : PathSet} (h : Marked s ps o) :
    mapAll (fun i => s.set (decide (i.path ∈ ps)) i) o = o := by
  refine mapAll_eq_self fun i hi => ?_
  have hget : decide (i.path ∈ ps) = s.get i := by
    rw [Bool.eq_iff_iff, decide_eq_true_iff]
    exact (h i hi).symm
  rw [hget, hs.set_get]

/-- A switch is on for all those items of an outline whose paths are in a set. -/
def Raised (s : Switch) (ps : PathSet) (o : Outline) : Prop :=
  ∀ i ∈ o.items, i.path ∈ ps → s.get i = true

theorem Raised.shift (hs : s.Lawful) (h : o.WellKeyed) {before : PathSet} (hr : Raised s before o)
    (after : PathSet) : Raised s after (shift s before after o).1 := by
  intro i hi hp
  rw [shift_eq hs h, items_mapAll] at hi
  obtain ⟨j, hj, rfl⟩ := List.mem_map.1 hi
  by_cases hb : j.path ∈ before
  · -- what stays in the set is left alone
    by_cases ha : j.path ∈ after
    · simp only [hb, ha, not_true_eq_false, and_false, if_false]
      exact hr j hj hb
    · simp [hb, ha, hs.path] at hp
  · by_cases ha : j.path ∈ after
    · simp only [hb, ha, not_false_eq_true, and_self, if_true]
      exact hs.get_set true j
    · simp [hb, ha] at hp

/-- Moving a switch does no more to an item than to turn it on or off. -/
theorem exists_of_mem_shift (hs : s.Lawful) (h : o.WellKeyed) {before after : PathSet} {i : Item}
    (hi : i ∈ items (shift s before after o).1) : ∃ j ∈ o.items, ∃ on, i = s.set on j := by
  rw [shift_eq hs h, items_mapAll] at hi
  obtain ⟨j, hj, rfl⟩ := List.mem_map.1 hi
  refine ⟨j, hj, ?_⟩
  split
  · exact ⟨true, rfl⟩
  · split
    · exact ⟨false, rfl⟩
    · exact ⟨s.get j, (hs.set_get j).symm⟩

section

variable {s' : Switch} {ps : PathSet} (hs : s.Lawful) (hget : ∀ on i, s'.get (s.set on i) = s'.get i)
include hs hget

theorem Marked.shift_other (h : o.WellKeyed) (hm : Marked s' ps o) (before after : PathSet) :
    Marked s' ps (Outline.shift s before after o).1 := by
  intro i hi
  obtain ⟨j, hj, on, rfl⟩ := exists_of_mem_shift hs h hi
  rw [hget, hs.path]
  exact hm j hj

theorem Raised.shift_other (h : o.WellKeyed) (hr : Raised s' ps o) (before after : PathSet) :
    Raised s' ps (Outline.shift s before after o).1 := by
  intro i hi
  obtain ⟨j, hj, on, rfl⟩ := exists_of_mem_shift hs h hi
  rw [hget, hs.path]
  exact hr j hj

end

/-! ## Reports -/

/-- The changes take one outline to another. Each is about an item that is there when its turn comes,
and turns one of its switches to the other side. -/
inductive Toggles : Outline → List Change → Outline → Prop
  | nil (o : Outline) : Toggles o [] o
  | cons {s : Switch} {p : Path} {i : Item} {o o' : Outline} {cs : List Change} :
      s ∈ [Switch.focused, .inView, .expanded] → o.item? p = some i →
      Toggles (modifyItem (s.set (!s.get i)) p o) cs o' →
      Toggles o (.update p s.property (.flag (!s.get i)) :: cs) o'

theorem Toggles.trans {o o' o'' : Outline} {cs ds : List Change} (h : Toggles o cs o')
    (h' : Toggles o' ds o'') : Toggles o (cs ++ ds) o'' := by
  induction h with
  | nil => exact h'
  | cons hs hp _ ih => exact .cons hs hp (ih h')

theorem Toggles.isStructural {o o' : Outline} {cs : List Change} (h : Toggles o cs o') :
    ∀ c ∈ cs, c.isStructural = false := by
  induction h with
  | nil => exact fun c hc => absurd hc List.not_mem_nil
  | cons _ _ _ ih =>
    intro c hc
    rcases List.mem_cons.1 hc with rfl | hc
    · rfl
    · exact ih c hc

theorem toggles_turn (hs : s ∈ [Switch.focused, .inView, .expanded]) (on : Bool) (p : Path)
    (o : Outline) : Toggles o (turn s on p o).2 (turn s on p o).1 := by
  unfold turn
  cases hp : o.item? p with
  | none => exact .nil o
  | some i =>
    simp only
    split
    · exact .nil o
    · next hon =>
      have hflip : on = !s.get i := Bool.eq_not.2 fun h => hon h.symm
      rw [hflip]
      exact .cons hs hp (.nil _)

theorem toggles_turnAll (hs : s ∈ [Switch.focused, .inView, .expanded]) (on : Bool) (ps : List Path)
    (o : Outline) : Toggles o (turnAll s on ps o).2 (turnAll s on ps o).1 := by
  induction ps generalizing o with
  | nil => exact .nil o
  | cons p ps ih => exact (toggles_turn hs on p o).trans (ih _)

theorem toggles_shift (hs : s ∈ [Switch.focused, .inView, .expanded]) (before after : PathSet)
    (o : Outline) : Toggles o (shift s before after o).2 (shift s before after o).1 :=
  (toggles_turnAll hs false _ o).trans (toggles_turnAll hs true _ _)

/-! ## What a query finds -/

namespace Findings

/-- Findings with every item changed. -/
def map (f : Item → Item) (found : Findings) : Findings where
  inRange := found.inRange.map f
  overlapping := found.overlapping.map f
  missed := found.missed.map (Prod.map id f)

theorem map_and (f : Item → Item) (g h : Findings) : (g.and h).map f = (g.map f).and (h.map f) := by
  simp [map, Findings.and]

end Findings

/-- A query sees where items are, and nothing else of them. -/
theorem visitAll_mapAll {f : Item → Item} (hf : ∀ i, (f i).range = i.range) (q : Lines)
    (found : Bool) (ts : Forest Item) :
    visitAll q found (mapAll f ts) = ((visitAll q found ts).1.map f, (visitAll q found ts).2) := by
  induction ts using induct_forest generalizing found with
  | nil => rfl
  | cons i cs ts ihc ih =>
    have hstarts : q.Starts (f i) ↔ q.Starts i := by rw [Lines.Starts, Lines.Starts, hf]
    have hoverlaps : q.Overlaps (f i) ↔ q.Overlaps i := by rw [Lines.Overlaps, Lines.Overlaps, hf]
    have hlies : q.LiesIn (f i) ↔ q.LiesIn i := by rw [Lines.LiesIn, Lines.LiesIn, hf]
    have hdistance : q.distance (f i) = q.distance i := by rw [Lines.distance, Lines.distance, hf]
    rw [mapAll_cons, map_node, visitAll, visitAll, visit, visit]
    simp only [ihc, ih, hstarts, hoverlaps, hlies, hdistance]
    -- what is found here is what was found, changed; the rest is found by the hypotheses
    rw [Findings.map_and]
    by_cases ho : q.Overlaps i
    · simp only [if_pos ho]
      congr 2
      simp [Findings.map, apply_ite (List.map _)]
    · simp only [if_neg ho]
      congr 2
      simp [Findings.none, Findings.map, apply_ite (List.map _)]

theorem search_mapAll {f : Item → Item} (hf : ∀ i, (f i).range = i.range) (q : Lines) (o : Outline) :
    search q (mapAll f o) = (search q o).map f := by
  unfold search
  rw [visitAll_mapAll hf]

theorem nearest_map (f : Item → Item) (limit : Nat) (missed : List (Nat × Item)) :
    nearest limit (missed.map (Prod.map id f)) = (nearest limit missed).map f := by
  induction missed generalizing limit with
  | nil => rfl
  | cons m missed ih =>
    obtain ⟨d, i⟩ := m
    rw [List.map_cons, Prod.map_apply, id_eq, nearest, nearest, ih, ih]
    split
    · cases nearest d missed <;> rfl
    · rfl

theorem underCursor_mapAll {f : Item → Item} (hf : ∀ i, (f i).range = i.range) (o : Outline)
    (q : Lines) : underCursor (mapAll f o) q = (underCursor o q).map f := by
  unfold underCursor
  simp only [search_mapAll hf]
  by_cases hfound : (search q o).inRange = []
  · have hmap : ((search q o).map f).inRange = [] := by simp [Findings.map, hfound]
    have hclosest : ((search q o).map f).closest = (search q o).closest.map f := nearest_map f _ _
    rw [if_pos hfound, if_pos hmap, hclosest]
    cases (search q o).closest <;> rfl
  · have hmap : ¬ ((search q o).map f).inRange = [] := by simp [Findings.map, hfound]
    rw [if_neg hfound, if_neg hmap]
    rfl

/-- The items a query has visited, found or not. -/
def Findings.items (found : Findings) : List Item :=
  found.inRange ++ found.overlapping ++ found.missed.map Prod.snd

theorem Findings.mem_and {g h : Findings} {i : Item} :
    i ∈ (g.and h).items ↔ i ∈ g.items ∨ i ∈ h.items := by
  simp only [Findings.items, Findings.and, List.map_append, List.mem_append]
  grind

theorem visit_mem {q : Lines} {found : Bool} {j : Item} {cs : Forest Item} {i : Item}
    (h : i ∈ (visit q found (node j cs)).1.items) : i = j ∨ i ∈ (visitAll q false cs).1.items := by
  rw [visit] at h
  by_cases ho : q.Overlaps j
  · simp only [Findings.items, if_pos ho, List.map_append, List.mem_append] at h ⊢
    grind
  · simp only [Findings.items, if_neg ho, List.map_append, List.mem_append] at h ⊢
    grind [Findings.none]

theorem visitAll_mem {q : Lines} {found : Bool} {ts : Forest Item} {i : Item}
    (h : i ∈ (visitAll q found ts).1.items) : i ∈ valuesAll ts := by
  induction ts using induct_forest generalizing found with
  | nil => cases h
  | cons j cs ts ihc ih =>
    rw [valuesAll_cons]
    rw [visitAll] at h
    rcases Findings.mem_and.1 h with h | h
    · rcases visit_mem h with rfl | h
      · exact List.mem_cons_self ..
      · exact List.mem_cons_of_mem _ (List.mem_append_left _ (ihc h))
    · exact List.mem_cons_of_mem _ (List.mem_append_right _ (ih h))

theorem search_mem {q : Lines} {i : Item} (h : i ∈ (search q o).items) : i ∈ o.items :=
  visitAll_mem h

theorem inRange_mem {q : Lines} {i : Item} (h : i ∈ (search q o).inRange) : i ∈ o.items :=
  search_mem (List.mem_append_left _ (List.mem_append_left _ h))

theorem overlapping_mem {q : Lines} {i : Item} (h : i ∈ (search q o).overlapping) : i ∈ o.items :=
  search_mem (List.mem_append_left _ (List.mem_append_right _ h))

theorem nearest_mem {limit : Nat} {missed : List (Nat × Item)} {i : Item}
    (h : nearest limit missed = some i) : i ∈ missed.map Prod.snd := by
  induction missed generalizing limit with
  | nil => cases h
  | cons m missed ih =>
    obtain ⟨d, j⟩ := m
    rw [nearest] at h
    rw [List.map_cons, List.mem_cons]
    split at h
    · cases hn : nearest d missed with
      | none =>
        rw [hn] at h
        exact .inl (Option.some.inj h).symm
      | some k =>
        rw [hn] at h
        obtain rfl : k = i := Option.some.inj h
        exact .inr (ih hn)
    · exact .inr (ih h)

theorem underCursor_mem {q : Lines} {i : Item} (h : i ∈ o.underCursor q) : i ∈ o.items := by
  unfold underCursor at h
  simp only at h
  split at h
  · have := nearest_mem (Option.mem_toList.1 h)
    exact search_mem (List.mem_append_right _ this)
  · exact inRange_mem h

end Outline

end SymbolOutline
