import SymbolOutline.Proofs.PostOrder
import SymbolOutline.Proofs.WorkingSets

/-
The entry a query falls back on. What it visits and does not find in range it has missed, and the closest
item is that of the nearest entry missed, the first in post-order where several are as near
(`closest_search`). There is one, or something is in range, unless the outline is empty or all is out of
reach.

So cursors within reach fall on an item, but that does not put it in focus: a tracker switches on what it
does not remember to be on. Cursors leave an item in focus if one of those that they fall on is new to the
tracker or has stayed in focus (`hasFocus_focus_iff`). This is so if nobody but the tracker takes items out
of focus (`focuses_follow`), and so in a session (`focuses_run`).
-/

namespace SymbolOutline

open Rose Forest

namespace Outline

variable {q : Lines} {found : Bool} {i j : Item} {t : Rose Item} {cs ss ts : Forest Item} {o : Outline}
  {a b : List Nat}

/-! ## What is missed -/

/-- A query visits an entry and does not find it in range. `found` says whether anything was found
before. -/
def Misses (q : Lines) (found : Bool) (ts : Forest Item) (a : List Nat) : Prop :=
  Visits q ts (fun _ => True) a ∧ a ∉ hitsIn q found ts

theorem misses_top : Misses q found (node i cs :: ss) [0] ↔ [] ∉ hitsAt q found (node i cs) := by
  rw [Misses, visits_top, zero_mem_hitsIn, true_and]

theorem misses_below (ha : a ≠ []) :
    Misses q found (node i cs :: ss) (0 :: a) ↔ q.Overlaps i ∧ Misses q false cs a := by
  obtain ⟨n, a, rfl⟩ := List.exists_cons_of_ne_nil ha
  rw [Misses, visits_below ha, zero_mem_hitsIn, cons_mem_hitsAt, and_assoc]
  exact and_congr_right fun ho => and_congr_right fun _ => not_congr (and_iff_right ho)

theorem misses_shift : Misses q found (t :: ss) (Forest.shift a) ↔
    Misses q (found || !(hitsAt q found t).isEmpty) ss a := by
  rw [Misses, visits_shift]
  refine and_congr_right fun hv => not_congr ?_
  cases a with
  | nil => exact absurd hv not_visits_nil
  | cons n a => exact succ_mem_hitsIn

theorem missed_cons (q : Lines) (found : Bool) (i : Item) (cs ss : Forest Item) :
    (visitAll q found (node i cs :: ss)).1.missed =
      (if q.Overlaps i then (visitAll q false cs).1.missed else []) ++
        (if [] ∉ hitsAt q found (node i cs) then [(q.distance i, i)] else []) ++
        (visitAll q (found || !(hitsAt q found (node i cs)).isEmpty) ss).1.missed := by
  have hflag := (visit_eq (i := i) (readOff q cs) found).2
  have hbelow := (readOff q cs false).2
  rw [visitAll, ← hflag]
  simp only [Findings.and]
  congr 1
  -- an item is missed if neither rule of the visit finds it
  simp only [nil_mem_hitsAt, hitsBelow]
  by_cases ho : q.Overlaps i <;> by_cases hs : q.Starts i <;> by_cases hl : q.LiesIn i <;>
    cases found <;> cases hc : hitsIn q false cs <;> simp_all [visit, Findings.none]

/-- What a query lists as missed: what it visits and does not find in range, with its distance. -/
theorem listed_missed (q : Lines) (found : Bool) (ts : Forest Item) :
    ∃ xs : List Item, (visitAll q found ts).1.missed = xs.map (fun i => (q.distance i, i)) ∧
      Listed ts (Misses q found ts) xs := by
  induction ts using induct_forest generalizing found with
  | nil => exact ⟨[], rfl, listed_nil [] fun a h => not_nil_visits h.1⟩
  | cons i cs ss ihc ih =>
    obtain ⟨xs, hxs, hbelow⟩ := ihc false
    obtain ⟨ys, hys, hbeside⟩ := ih (found || !(hitsAt q found (node i cs)).isEmpty)
    refine ⟨_, ?_, (hbelow.guard (q.Overlaps i)).cons hbeside (fun h => not_visits_nil h.1) misses_top
      (fun a ha => misses_below ha) fun a => misses_shift⟩
    rw [missed_cons, hxs, hys, List.map_append, List.map_append]
    simp only [apply_ite (List.map _), List.map_nil, List.map_cons]

/-! ## The nearest of a list -/

theorem nearest_eq_none {limit : Nat} {f : Item → Nat} {xs : List Item} :
    nearest limit (xs.map fun i => (f i, i)) = none ↔ ∀ i ∈ xs, limit ≤ f i := by
  induction xs with
  | nil => simp [nearest]
  | cons x xs ih =>
    rw [List.map_cons, nearest, List.forall_mem_cons, ← ih]
    by_cases hx : f x < limit
    · simp [hx]
    · simp [hx, Nat.le_of_not_lt hx]

/-- The nearest item is nearer than the limit and than all ahead of it, and none behind it is nearer. -/
theorem nearest_eq_some {limit : Nat} {f : Item → Nat} {xs : List Item}
    (h : nearest limit (xs.map fun i => (f i, i)) = some i) :
    ∃ pre post, xs = pre ++ i :: post ∧ f i < limit ∧ (∀ j ∈ pre, f i < f j) ∧ ∀ j ∈ post, f i ≤ f j := by
  induction xs generalizing limit with
  | nil => cases h
  | cons x xs ih =>
    rw [List.map_cons, nearest] at h
    by_cases hx : f x < limit
    · rw [if_pos hx] at h
      cases hn : nearest (f x) (xs.map fun i => (f i, i)) with
      | none =>
        rw [hn] at h
        obtain rfl : x = i := Option.some.inj h
        exact ⟨[], xs, rfl, hx, List.forall_mem_nil _, nearest_eq_none.1 hn⟩
      | some k =>
        rw [hn] at h
        obtain rfl : k = i := Option.some.inj h
        obtain ⟨pre, post, rfl, hlt, hpre, hpost⟩ := ih hn
        exact ⟨x :: pre, post, rfl, Nat.lt_trans hlt hx, List.forall_mem_cons.2 ⟨hlt, hpre⟩, hpost⟩
    · rw [if_neg hx] at h
      obtain ⟨pre, post, rfl, hlt, hpre, hpost⟩ := ih h
      exact ⟨x :: pre, post, rfl, hlt,
        List.forall_mem_cons.2 ⟨Nat.lt_of_lt_of_le hlt (Nat.le_of_not_lt hx), hpre⟩, hpost⟩

/-! ## The nearest entry missed -/

/-- A query visits an entry of an outline and does not find it in range. -/
def Missed (q : Lines) (o : Outline) (a : List Nat) : Prop := Misses q false o a

/-- Of the entries a query misses, the first in post-order of those at the least distance. -/
structure FirstNearest (q : Lines) (o : Outline) (a : List Nat) (i : Item) : Prop where
  value : valueAt? o a = some i
  missed : Missed q o a
  least : ∀ b, Missed q o b → ∀ j ∈ valueAt? o b, q.distance i ≤ q.distance j
  first : ∀ b, Missed q o b → ∀ j ∈ valueAt? o b, q.distance j = q.distance i → b ≠ a → PostLt a b

theorem FirstNearest.unique (h : FirstNearest q o a i) (h' : FirstNearest q o b j) : a = b := by
  by_contra hne
  have hdistance : q.distance j = q.distance i :=
    Nat.le_antisymm (h'.least a h.missed i h.value) (h.least b h'.missed j h'.value)
  exact (h.first b h'.missed j h'.value hdistance (Ne.symm hne)).asymm
    (h'.first a h.missed i h.value hdistance.symm hne)

/-- The nearest of the items missed is that of the first nearest entry. -/
theorem firstNearest_of_nearest {limit : Nat} (h : nearest limit (search q o).missed = some i) :
    ∃ a, FirstNearest q o a i ∧ q.distance i < limit := by
  obtain ⟨xs, hxs, as, horder, hmem, hvalues⟩ := listed_missed q false o
  rw [search, hxs] at h
  obtain ⟨pre, post, rfl, hlimit, hpre, hpost⟩ := nearest_eq_some h
  -- the addresses ahead of its own, and those behind it
  rw [List.map_append, List.map_cons] at hvalues
  obtain ⟨bs, cs, rfl, hbs, hcs⟩ := List.map_eq_append_iff.1 hvalues.symm
  obtain ⟨a, ds, rfl, ha, hds⟩ := List.map_eq_cons_iff.1 hcs
  have hahead : ∀ b ∈ bs, ∀ j ∈ valueAt? o b, q.distance i < q.distance j :=
    fun b hb j hj => hpre j ((mem_iff_of_values hbs.symm).2 ⟨b, hb, hj⟩)
  have hbehind : ∀ b ∈ ds, ∀ j ∈ valueAt? o b, q.distance i ≤ q.distance j :=
    fun b hb j hj => hpost j ((mem_iff_of_values hds.symm).2 ⟨b, hb, hj⟩)
  have hwhere : ∀ b, Missed q o b → b ∈ bs ∨ b = a ∨ b ∈ ds := by
    intro b hb
    simpa only [List.mem_append, List.mem_cons] using (hmem b).2 hb
  refine ⟨a, ⟨ha, (hmem a).1 (by simp), fun b hb j hj => ?_, fun b hb j hj hij hne => ?_⟩, hlimit⟩
  · rcases hwhere b hb with hb | rfl | hb
    · exact Nat.le_of_lt (hahead b hb j hj)
    · obtain rfl := Option.some.inj (ha.symm.trans hj)
      exact Nat.le_refl _
    · exact hbehind b hb j hj
  · rcases hwhere b hb with hb | rfl | hb
    · exact absurd hij.symm (Nat.ne_of_lt (hahead b hb j hj))
    · exact absurd rfl hne
    · exact (List.pairwise_cons.1 (List.pairwise_append.1 horder).2.1).1 b hb

theorem closest_eq_none : (search q o).closest = none ↔
    ∀ a, Missed q o a → ∀ i ∈ valueAt? o a, outOfReach ≤ q.distance i := by
  obtain ⟨xs, hxs, as, -, hmem, hvalues⟩ := listed_missed q false o
  rw [Findings.closest, search, hxs, nearest_eq_none]
  constructor
  · intro h a ha i hi
    exact h i ((mem_iff_of_values hvalues).2 ⟨a, (hmem a).2 ha, hi⟩)
  · intro h i hi
    obtain ⟨a, ha, hai⟩ := (mem_iff_of_values hvalues).1 hi
    exact h a ((hmem a).1 ha) i hai

theorem closest_eq_some : (search q o).closest = some i ↔
    ∃ a, FirstNearest q o a i ∧ q.distance i < outOfReach := by
  refine ⟨firstNearest_of_nearest, fun ⟨a, ha, hlimit⟩ => ?_⟩
  cases hc : (search q o).closest with
  | none => exact absurd hlimit (Nat.not_lt.2 (closest_eq_none.1 hc a ha.missed i ha.value))
  | some j =>
    obtain ⟨b, hb, -⟩ := firstNearest_of_nearest hc
    obtain rfl := ha.unique hb
    exact hb.value.symm.trans ha.value

/-! ## Something to fall back on -/

/-- An outline has items, and these and some lines start before the last line that there can be. -/
structure InReach (q : Lines) (o : Outline) : Prop where
  ne_nil : o ≠ []
  query : q.first < outOfReach
  items : ∀ i ∈ o.items, i.range.firstLine < outOfReach

theorem distance_lt {limit : Nat} (hq : q.first < limit) (hi : i.range.firstLine < limit) :
    q.distance i < limit := by
  refine Nat.lt_of_le_of_lt (Nat.min_le_right ..) ?_
  unfold Lines.apart
  omega

/-- Where nothing is in range the roots are missed. -/
theorem InReach.inRange_or_closest (h : InReach q o) :
    (search q o).inRange ≠ [] ∨ (search q o).closest.isSome := by
  by_contra hnone
  obtain ⟨hrange, hclosest⟩ := not_or.1 hnone
  rw [not_not] at hrange
  rw [Option.not_isSome_iff_eq_none, closest_eq_none] at hclosest
  have hhits : hits q o = [] := by
    have := (readOff q o false).1
    rwa [← search, hrange, List.map_nil, eq_comm, List.map_eq_nil_iff] at this
  obtain ⟨⟨i, cs⟩, ss, rfl⟩ := List.exists_cons_of_ne_nil h.ne_nil
  have hmissed : Missed q (node i cs :: ss) [0] :=
    ⟨visits_top.2 trivial, fun hmem => by
      rw [← hits, hhits] at hmem
      cases hmem⟩
  have hi : i ∈ Outline.items (node i cs :: ss) := by
    rw [Outline.items, valuesAll_cons]
    exact List.mem_cons_self
  exact Nat.not_lt.2 (hclosest [0] hmissed i rfl) (distance_lt h.query (h.items i hi))

theorem InReach.underCursor_ne_nil (h : InReach q o) : o.underCursor q ≠ [] := by
  unfold underCursor
  simp only
  split
  · next hrange =>
    obtain ⟨i, hi⟩ := Option.isSome_iff_exists.1 (h.inRange_or_closest.resolve_left (· hrange))
    rw [hi]
    exact List.cons_ne_nil i []
  · assumption

end Outline

namespace Tracker

open Outline

variable {t : Tracker} {o : Outline}

/-! ## Something in focus -/

/-- One of the items that a tracker remembers as focused is so. -/
def HasFocus (t : Tracker) (o : Outline) : Prop := ∃ i ∈ o.items, i.focused = true ∧ i.path ∈ t.focused

/-- Cursors on other lines than before leave an item in focus, if the tracker follows them and one of them
is in reach. -/
def Focuses (t : Tracker) (o : Outline) : Prop :=
  ∀ cursors, t.pin ≠ .frozen → cursors.map linesOf ≠ t.cursors →
    (∃ c ∈ cursors, InReach (linesOf c) o) → HasFocus (t.focus o cursors).1 (t.focus o cursors).2.1

/-- Cursors on other lines leave an item in focus exactly if they fall on one that the tracker does not
remember as focused, or that is so. -/
theorem hasFocus_focus_iff (ho : o.WellKeyed) {cursors : List Span} (hpin : t.pin ≠ .frozen)
    (hlines : cursors.map linesOf ≠ t.cursors) :
    HasFocus (t.focus o cursors).1 (t.focus o cursors).2.1 ↔
      ∃ i ∈ o.items, i.path ∈ o.inFocus (cursors.map linesOf) ∧
        (i.path ∈ t.focused → i.focused = true) := by
  rcases t.focus_cases o cursors with ⟨hsame, -⟩ | ⟨-, hs⟩
  · exact absurd hsame (not_or.2 ⟨hpin, hlines⟩)
  rw [hs, HasFocus]
  simp only [shift_eq lawful_focused ho, items_mapAll, List.mem_map, exists_exists_and_eq_and]
  generalize o.inFocus (cursors.map linesOf) = after
  refine exists_congr fun i => and_congr_right fun _ => ?_
  -- what stays in the set is left alone, and what comes into it is switched on
  by_cases ha : i.path ∈ after
  · by_cases hb : i.path ∈ t.focused
    · simp [ha, hb]
    · simp [ha, hb, Switch.focused]
  · by_cases hb : i.path ∈ t.focused
    · simp [ha, hb, Switch.focused]
    · simp [ha, hb]

/-- Where all that a tracker remembers as focused is so, the next cursors leave an item in focus. -/
theorem focuses_of_raised (ho : o.WellKeyed) (h : Raised .focused t.focused o) : Focuses t o := by
  rintro cursors hpin hlines ⟨c, hc, hreach⟩
  obtain ⟨i, hi⟩ := List.exists_mem_of_ne_nil _ hreach.underCursor_ne_nil
  refine (hasFocus_focus_iff ho hpin hlines).2 ⟨i, underCursor_mem hi, ?_, h i (underCursor_mem hi)⟩
  exact PathSet.mem_ofList.2 (List.mem_map_of_mem (List.mem_flatMap.2 ⟨_, List.mem_map_of_mem hc, hi⟩))

theorem raised_call (ho : o.WellKeyed) (h : Raised .focused t.focused o) (c : Call) :
    Raised .focused (t.call o c).1.focused (t.call o c).2.1 := by
  cases c with
  | focus cursors =>
    rw [call]
    rcases t.focus_cases o cursors with ⟨-, hs⟩ | ⟨-, hs⟩ <;> rw [hs]
    · exact h
    · exact h.shift lawful_focused ho _
  | view visible =>
    have hseen := h.shift_other lawful_inView (fun _ _ => rfl) ho t.inView (o.onLines (linesOf visible))
    have hunlit := (retouched_shift shows_inView t.inView (o.onLines (linesOf visible)) o).unlit
    rw [call]
    rcases t.view_cases o visible with ⟨-, hs⟩ | ⟨-, -, hs⟩ | ⟨-, hs⟩ <;> rw [hs]
    · exact h
    · exact hseen
    · exact hseen.shift_other lawful_expanded (fun _ _ => rfl) (ho.of_unlit hunlit) _ _
  | setPin pin => exact h

/-- However a tracker was called before, the next cursors leave an item in focus. -/
theorem focuses_follow (ho : o.WellKeyed) (h : Raised .focused t.focused o) (cs : List Call) :
    Focuses (t.follow o cs).1 (t.follow o cs).2.1 := by
  induction cs generalizing t o with
  | nil => exact focuses_of_raised ho h
  | cons c cs ih => exact ih ((retouched_call t o c).wellKeyed ho) (raised_call ho h c)

/-- A tracker that has forgotten all entries remembers none as focused, and so has a new one. -/
theorem focuses_reset (ho : o.WellKeyed) (t : Tracker) (cs : List Call) :
    Focuses (t.reset.follow o cs).1 (t.reset.follow o cs).2.1 :=
  focuses_follow ho (fun i _ hp => absurd hp (PathSet.not_mem_empty i.path)) cs

end Tracker

/-- Whatever a session went through, the next cursors leave an item in focus. -/
theorem Session.focuses_run {s : Session} (h : s.Fresh) {es : List Event} (hu : s.AllUnambiguous es)
    {o : Outline} (ho : (s.run es).2.outline = some o) : (s.run es).2.tracker.Focuses o := by
  obtain ⟨hcoherent, hkeyed, -⟩ := agrees_run _ (h.inSync none) h.coherent.1 hu
  obtain ⟨-, hheld⟩ := hcoherent.present o ho
  exact Tracker.focuses_of_raised (hkeyed o ho).1 fun i hi hp => (hheld.focused i hi).2 hp

namespace Outline

/-- What a query falls back on: the first in post-order of the nearest entries that it visits and does not
find in range, if they are not out of reach. Within reach there is one, or something is in range. Cursors that
come there leave an item in focus exactly if one of those they fall on is new to the tracker or still in focus.
That is always so after any calls of a tracker that began with nothing, or with all it remembered in focus, and
in every session. -/
theorem closest_search (q : Lines) (o : Outline) :
    (search q o).inRange.map some = (hits q o).map (valueAt? o) ∧
      (∀ i, (search q o).closest = some i ↔ ∃ a, FirstNearest q o a i ∧ q.distance i < outOfReach) ∧
      ((search q o).closest = none ↔
        ∀ a, Missed q o a → ∀ i ∈ valueAt? o a, outOfReach ≤ q.distance i) ∧
      (InReach q o → (search q o).inRange ≠ [] ∨ (search q o).closest.isSome) ∧
      (∀ (t : Tracker) (cursors : List Span), o.WellKeyed → t.pin ≠ .frozen →
        cursors.map linesOf ≠ t.cursors →
        ((t.focus o cursors).1.HasFocus (t.focus o cursors).2.1 ↔
          ∃ i ∈ o.items, i.path ∈ o.inFocus (cursors.map linesOf) ∧
            (i.path ∈ t.focused → i.focused = true))) ∧
      (∀ (t : Tracker) (cs : List Tracker.Call), o.WellKeyed → Raised .focused t.focused o →
        (t.follow o cs).1.Focuses (t.follow o cs).2.1) ∧
      (∀ (t : Tracker) (cs : List Tracker.Call), o.WellKeyed →
        (t.reset.follow o cs).1.Focuses (t.reset.follow o cs).2.1) ∧
      ∀ (s : Session) (es : List Event), s.Fresh → s.AllUnambiguous es →
        (s.run es).2.outline = some o → (s.run es).2.tracker.Focuses o :=
  ⟨(readOff q o false).1, fun _ => closest_eq_some, closest_eq_none, fun h => h.inRange_or_closest,
    fun _ _ ho hpin hlines => Tracker.hasFocus_focus_iff ho hpin hlines,
    fun _ cs ho h => Tracker.focuses_follow ho h cs, fun t cs ho => t.focuses_reset ho cs,
    fun _ _ h hu ho => Session.focuses_run h hu ho⟩

/-- A query between two functions. The nearest start on the same line, the one in the other, and the inner
one comes first. Cursors come there, in an outline of its own and in a session. -/
theorem closest_search_tie :
    let item (name : String) (range : Span) (children : Forest Item) : Rose Item :=
      node (.fresh ⟨.function, name⟩ "" range range) children
    let o := ofForest [item "a" (.ofLines 0 9) [item "b" (.ofLines 0 2) []], item "c" (.ofLines 40 41) []]
    let cursors := [Span.ofLines 5 20]
    let q := linesOf (.ofLines 5 20)
    let t := Tracker.new.follow o [.focus [.ofLines 40 40]]
    let d : Document := ⟨"file:a"⟩
    let es : List Event := [.updateDocument (some d),
      .completeRebuild ⟨d, 1⟩ [node ⟨⟨.function, "a"⟩, none, .ofLines 0 9, .ofLines 0 9⟩ []] none]
    let s := (Session.standard.run es).2
    (InReach q o ∧ o.WellKeyed ∧ Raised .focused Tracker.new.focused o ∧
        Tracker.new.pin ≠ .frozen ∧ cursors.map linesOf ≠ Tracker.new.cursors) ∧
      (Session.standard.Fresh ∧ Session.standard.AllUnambiguous es) ∧
      (search q o).inRange = [] ∧ (search q o).closest.map (·.key.name) = some "b" ∧
      ((search q o).inRange ≠ [] ∨ (search q o).closest.isSome) ∧
      (Tracker.new.focus o cursors).1.HasFocus (Tracker.new.focus o cursors).2.1 ∧
      t.1.Focuses t.2.1 ∧ ∃ o, s.outline = some o ∧ s.tracker.Focuses o := by
  intro item o cursors q t d es s
  have hreach : InReach q o := by
    refine ⟨?_, ?_, ?_⟩ <;> subst o q item <;> decide +kernel
  have hwell : o.WellKeyed := by
    refine ⟨?_, located_ofForest _⟩
    subst o item
    decide +kernel
  have hraised : Raised .focused Tracker.new.focused o :=
    fun i _ hp => absurd hp (PathSet.not_mem_empty i.path)
  have hfound : (search q o).inRange = [] ∧ (search q o).closest.map (·.key.name) = some "b" := by
    subst o q item
    decide +kernel
  have hd : d.isSupported = true := by decide
  have hu : Session.standard.AllUnambiguous es := by
    refine .of_forall fun t symbols text h => ?_
    simp only [es, List.mem_cons, Event.completeRebuild.injEq, reduceCtorEq, List.not_mem_nil,
      false_or, or_false] at h
    obtain ⟨-, rfl, rfl⟩ := h
    decide +kernel
  have hsome : s.outline.isSome = true := by
    simp only [s, es, Session.run, Session.updateDocument_of_isSupported _ hd]
    decide +kernel
  obtain ⟨o', ho'⟩ := Option.isSome_iff_exists.1 hsome
  obtain ⟨-, -, -, hfallback, hfocus, hfollow, -, -⟩ := closest_search q o
  obtain ⟨-, -, -, -, -, -, -, hsession⟩ := closest_search q o'
  have hlands : ∃ i ∈ o.items, i.path ∈ o.inFocus (cursors.map linesOf) ∧
      (i.path ∈ Tracker.new.focused → i.focused = true) := by
    subst o cursors item
    decide +kernel
  exact ⟨⟨hreach, hwell, hraised, by decide, by decide⟩, ⟨Session.fresh_standard, hu⟩, hfound.1, hfound.2,
    hfallback hreach, (hfocus _ _ hwell (by decide) (by decide)).2 hlands, hfollow _ _ hwell hraised,
    o', ho', hsession _ _ Session.fresh_standard hu ho'⟩

/-- Cursors within reach leave nothing in focus if they fall on what was in focus before and somebody else
has taken it out of focus since. -/
theorem not_focuses_unlit :
    let o := ofForest [node (.fresh ⟨.function, "f"⟩ "" (.ofLines 0 9) (.ofLines 0 9)) []]
    let first := Tracker.new.focus o [.ofLines 4 4]
    let next := first.1.focus first.2.1.unlit [.ofLines 3 3]
    (first.2.1.unlit.WellKeyed ∧ InReach (linesOf (.ofLines 3 3)) first.2.1.unlit ∧
        first.1.pin ≠ .frozen ∧ [Span.ofLines 3 3].map linesOf ≠ first.1.cursors) ∧
      (∃ i ∈ first.2.1.items, i.focused = true) ∧ ¬ ∃ i ∈ items next.2.1, i.focused = true := by
  intro o first next
  have hwell : o.WellKeyed := ⟨by decide +kernel, located_ofForest _⟩
  have hunlit : first.2.1.unlit.WellKeyed :=
    ((Tracker.retouched_focus _ _ _).wellKeyed hwell).mapAll (fun _ => rfl) fun _ => rfl
  have hreach : InReach (linesOf (.ofLines 3 3)) first.2.1.unlit := by
    refine ⟨?_, ?_, ?_⟩ <;> subst first o <;> decide +kernel
  exact ⟨⟨hunlit, hreach, by decide, by decide⟩, by decide +kernel, by decide +kernel⟩

end Outline

end SymbolOutline
