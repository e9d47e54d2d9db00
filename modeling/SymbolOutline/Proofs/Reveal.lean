import SymbolOutline.Proofs.Insertion
import SymbolOutline.Proofs.PostOrder
import SymbolOutline.Proofs.Sync
import SymbolOutline.Proofs.WorkingSets

/-
What comes into view can be seen (`revealed_viewportChanged`). Visible lines expand the entries around
them, and with an entry these are all that it is below (`mem_aroundLines_of_prefix`), since a query goes
below an entry only where it overlaps the lines. Nothing that is in range is left out, and what the lines
have left is collapsed before anything is expanded.

So whatever the session went through before, no item in view is hidden by one above it, neither in the
outline nor in a display that carried out all messages.
-/

namespace SymbolOutline

open Forest Rose

namespace Outline

variable {o : Outline} {a b : List Nat} {i : Item} {p : Path} {visible : Span}

/-! ## Above an entry around the lines -/

/-- A beginning of an entry's path is the path of the entry or of one above it. -/
theorem exists_of_prefix_path (hl : Located [] o) (hi : valueAt? o a = some i) (hp : p ≠ [])
    (hpi : p <+: i.path) : ∃ b, b <+: a ∧ b ≠ [] ∧ ∃ j ∈ valueAt? o b, j.path = p := by
  induction a using List.reverseRecOn generalizing i with
  | nil => cases hi
  | append_singleton a n ih =>
    by_cases hpath : i.path = p
    · exact ⟨a ++ [n], List.prefix_refl _, by simp, i, hi, hpath⟩
    by_cases ha : a = []
    · subst ha
      obtain ⟨⟨j, cs⟩, hu, hji⟩ := Option.bind_eq_some_iff.1 hi
      obtain rfl : j = i := Option.some.inj hji
      have hroot := (located_of_getElem? hl hu).1
      rw [hroot] at hpi hpath
      rcases List.prefix_concat_iff.1 hpi with h | h
      · exact absurd h.symm hpath
      · exact absurd (List.prefix_nil.1 h) hp
    · obtain ⟨j, hj⟩ := mem_addresses.1
        (mem_addresses_above (mem_addresses.2 ⟨i, hi⟩) (List.prefix_append a [n]) ha)
      rw [path_of_valueAt?_snoc hl hj hi] at hpi hpath
      obtain ⟨b, hb, hne, hfound⟩ := ih hj ((List.prefix_concat_iff.1 hpi).resolve_left fun h => hpath h.symm)
      exact ⟨b, hb.trans (List.prefix_append a [n]), hne, hfound⟩

theorem Visits.above {q : Lines} (h : Visits q o q.Overlaps a) (hb : b <+: a) (hne : b ≠ []) :
    Visits q o q.Overlaps b := by
  obtain ⟨⟨i, hi, hover⟩, habove⟩ := h
  by_cases hba : b = a
  · exact hba ▸ ⟨⟨i, hi, hover⟩, habove⟩
  · obtain ⟨j, hj⟩ := mem_addresses.1 (mem_addresses_above (mem_addresses.2 ⟨i, hi⟩) hb hne)
    refine ⟨⟨j, hj, habove b hb hba j hj⟩, fun c hc _ => habove c (hc.trans hb) ?_⟩
    rintro rfl
    exact hba (hb.eq_of_length_le hc.length_le)

/-- Lines are around the entries that overlap them, as all above these do. -/
theorem mem_aroundLines : p ∈ o.aroundLines (linesOf visible) ↔
    ∃ a, Visits (linesOf visible) o (linesOf visible).Overlaps a ∧ ∃ i ∈ valueAt? o a, i.path = p := by
  obtain ⟨as, hlisted⟩ := listed_overlapping (linesOf visible) false o
  have hlist : p ∈ (o.search (linesOf visible)).overlapping.map Item.path ↔
      ∃ a, Visits (linesOf visible) o (linesOf visible).Overlaps a ∧ ∃ i ∈ valueAt? o a, i.path = p := by
    rw [List.mem_map]
    constructor
    · rintro ⟨i, hi, hp⟩
      obtain ⟨a, ha, hia⟩ := (mem_iff_of_values hlisted.values).1 hi
      exact ⟨a, (hlisted.mem a).1 ha, i, hia, hp⟩
    · rintro ⟨a, ha, i, hi, hp⟩
      exact ⟨i, (mem_iff_of_values hlisted.values).2 ⟨a, (hlisted.mem a).2 ha, hi⟩, hp⟩
  rw [aroundLines, PathSet.mem_insertAll, hlist, or_iff_left_iff_imp]
  intro hp
  obtain ⟨i, hi, hip⟩ := List.mem_map.1 (PathSet.mem_ofList.1 hp)
  obtain ⟨a, ha, hia⟩ := (mem_iff_of_values (readOff (linesOf visible) o false).1).1 hi
  have hne : a ≠ [] := by rintro rfl; cases hia
  exact ⟨a, visits_overlaps_of_mem_hits ha (List.prefix_refl a) hne, i, hia, hip⟩

theorem mem_aroundLines_of_prefix (hl : Located [] o) {q : Path} (hq : q ∈ o.aroundLines (linesOf visible))
    (hp : p ≠ []) (hpq : p <+: q) : p ∈ o.aroundLines (linesOf visible) := by
  obtain ⟨a, hvisits, i, hi, rfl⟩ := mem_aroundLines.1 hq
  obtain ⟨b, hb, hne, hfound⟩ := exists_of_prefix_path hl hi hp hpq
  exact mem_aroundLines.2 ⟨b, hvisits.above hb hne, hfound⟩

/-- The row at the path of an item is the item's, and it is shown expanded as far as the depth limit allows. -/
theorem row_of_item? {v : View} (hv : v.roots = rows o) (hi : o.item? p = some i) :
    (∃ t, v.find? p = some t ∧ t.value = i.row) ∧
      v.isExpanded p = (i.expanded && v.maxDepth.all fun limit => p.length - 1 < limit) := by
  obtain ⟨t, ht, rfl⟩ := Option.map_eq_some_iff.1 hi
  have hfind : v.find? p = some (t.map Item.row) := by
    rw [View.find?, hv, rows, find?_mapAll (φ := Item.row) fun _ => rfl, ht]
    rfl
  have hvalue : (t.map Item.row).value = t.value.row := by cases t; rfl
  refine ⟨⟨_, hfind, hvalue⟩, ?_⟩
  rw [View.isExpanded, hfind]
  simp only [hvalue]
  rfl

end Outline

open Outline

/-! ## Visible lines -/

/-- Right after lines have come into view while nothing is pinned, the items in view are among those that
the lines are around, and these are expanded. -/
theorem Held.expanded_view {t : Tracker} {b : Badges} {o : Outline} (ho : o.WellKeyed) (h : Held t b o)
    (hpin : t.pin = .unpinned) (visible : Span) :
    let o' := (t.view o visible).2.1
    ∀ i ∈ o'.items, (i.inView = true → i.path ∈ o'.aroundLines (linesOf visible)) ∧
      (i.path ∈ o'.aroundLines (linesOf visible) → i.expanded = true) := by
  intro o' i hi
  have hview := h.view ho visible
  have hunlit : o'.unlit = o.unlit := (t.retouched_view o visible).unlit
  have haround : o'.aroundLines (linesOf visible) = o.aroundLines (linesOf visible) :=
    eq_of_unlit (aroundLines · _) (aroundLines_unlit · _) hunlit
  obtain ⟨hseen, hopened⟩ : (t.view o visible).1.inView = o.onLines (linesOf visible) ∧
      (t.view o visible).1.expanded = o.aroundLines (linesOf visible) := by
    rcases t.view_cases o visible with ⟨hp, -⟩ | ⟨-, hp, -⟩ | ⟨-, hs⟩
    · exact absurd (hp.symm.trans hpin) (by decide)
    · exact absurd hpin hp
    · rw [hs]
      exact ⟨rfl, rfl⟩
  rw [haround]
  refine ⟨fun hin => PathSet.mem_insertAll.2 (.inr ?_), fun hp => hview.expanded i hi (hopened ▸ hp)⟩
  exact hseen ▸ (hview.inView i hi).1 hin

namespace Session

variable {s : Session}

/-- Right after other lines come into view while nothing is pinned, what is in view can be seen: the items in
view, those that overlap the lines, and all that these are below are expanded. The display that carried out all
messages expands their rows, as far down as its limit allows. -/
theorem revealed_viewportChanged (h : s.Fresh) {es : List Event} (hu : s.AllUnambiguous es)
    (hpin : (s.run es).2.tracker.pin = .unpinned) (depth : Option Nat) {visible : Span} {o : Outline}
    (ho : ((s.run es).2.viewportChanged visible).2.outline = some o) :
    let v := ((s.run es).1 ++ ((s.run es).2.viewportChanged visible).1).foldl View.handle (View.empty depth)
    ∀ i ∈ o.items, i.inView = true ∨ i ∈ (o.search (linesOf visible)).overlapping →
      ∀ p, p ≠ [] → p <+: i.path →
        (∃ j, o.item? p = some j ∧ j.expanded = true) ∧
          (∃ t, v.find? p = some t ∧ t.value.expanded = true) ∧
          v.isExpanded p = v.maxDepth.all fun limit => p.length - 1 < limit := by
  intro v i hi hseen p hp hpi
  obtain ⟨hcoherent, hkeyed, -⟩ := agrees_run _ (h.inSync none) h.coherent.1 hu
  have hsync : InSync ((s.run es).2.viewportChanged visible).2 v := by
    have hstep := inSync_step (e := .viewportChanged visible) (inSync_run (h.inSync depth) hu) trivial
    rwa [← List.foldl_append] at hstep
  obtain ⟨hwell, -⟩ := hsync.keyed o ho
  have hview : ∀ i ∈ o.items, (i.inView = true → i.path ∈ o.aroundLines (linesOf visible)) ∧
      (i.path ∈ o.aroundLines (linesOf visible) → i.expanded = true) := by
    rcases (s.run es).2.follows_viewportChanged visible with ⟨hnone, hs⟩ | ⟨old, inboxes, hold, -, hs⟩
    · rw [hs, hnone] at ho
      cases ho
    · rw [hs] at ho
      obtain rfl := Option.some.inj ho
      exact (hcoherent.present old hold).2.expanded_view (hkeyed old hold).1 hpin visible
  have haround : i.path ∈ o.aroundLines (linesOf visible) :=
    hseen.elim (hview i hi).1 fun hover => PathSet.mem_insertAll.2 (.inl (List.mem_map_of_mem hover))
  have habove := mem_aroundLines_of_prefix hwell.located haround hp hpi
  obtain ⟨j, hj⟩ := Option.isSome_iff_exists.1 (leads_aroundLines hwell _ p habove)
  obtain ⟨hmem, rfl⟩ := hwell.item?_eq_some.1 hj
  have hexpanded := (hview j hmem).2 habove
  obtain ⟨⟨t, ht, hvalue⟩, hshown⟩ := row_of_item? (hsync.rows_eq ho).1 hj
  refine ⟨⟨j, hj, hexpanded⟩, ⟨t, ht, ?_⟩, ?_⟩
  · rw [hvalue]
    exact hexpanded
  · rw [hshown, hexpanded, Bool.true_and]

/-- A function in a class, out of view and then in view, after the outline was made anew while the pin was set. -/
theorem revealed_viewportChanged_nested :
    let leaf (kind : Kind) (name : String) (first last : Nat) : Rose Symbol :=
      node ⟨⟨kind, name⟩, none, .ofLines first last, .ofLines first first⟩ []
    let d : Document := ⟨"file:a"⟩
    let symbols := [leaf .classType "A" 0 20, leaf .method "f" 2 8, leaf .function "g" 40 50]
    let es : List Event := [
      .updateDocument (some d),
      .completeRebuild ⟨d, 1⟩ symbols none,
      .viewportChanged (.ofLines 40 44),
      .setPin .pinned,
      .updateDocument (some d),
      .completeRebuild ⟨d, 2⟩ symbols none,
      .setPin .unpinned]
    let visible := Span.ofLines 4 6
    let v := ((standard.run es).1 ++ ((standard.run es).2.viewportChanged visible).1).foldl View.handle
      (View.empty (some 1))
    let A : Key := ⟨.classType, "A"⟩
    let f : Key := ⟨.method, "f"⟩
    standard.Fresh ∧ standard.AllUnambiguous es ∧ (standard.run es).2.tracker.pin = .unpinned ∧
      ∃ o i, ((standard.run es).2.viewportChanged visible).2.outline = some o ∧ i ∈ o.items ∧
        i.inView = true ∧ i.path = [A, f] ∧
        (∃ j, o.item? [A] = some j ∧ j.expanded = true) ∧
        (∃ t, v.find? [A] = some t ∧ t.value.expanded = true) := by
  intro leaf d symbols es visible v A f
  have hu : standard.AllUnambiguous es := by
    refine .of_forall fun t symbols text h => ?_
    simp only [es, List.mem_cons, Event.completeRebuild.injEq, reduceCtorEq, List.not_mem_nil,
      false_or, or_false] at h
    rcases h with ⟨-, rfl, rfl⟩ | ⟨-, rfl, rfl⟩ <;> rw [outlineOf, ofSymbols_eq_inserted] <;> decide +kernel
  have hpin : (standard.run es).2.tracker.pin = .unpinned := by
    simp only [es, run, step, completeRebuild, ofSymbols_eq_inserted]
    decide +kernel
  have hseen : ((standard.run es).2.viewportChanged visible).2.outline.any (fun o =>
      o.items.any fun i => i.inView ∧ i.path = [A, f]) = true := by
    simp only [es, run, step, completeRebuild, ofSymbols_eq_inserted]
    decide +kernel
  obtain ⟨o, ho, hi⟩ := Option.any_eq_true _ _ |>.1 hseen
  obtain ⟨i, hi, hview⟩ := List.any_eq_true.1 hi
  obtain ⟨hin, hpath⟩ := of_decide_eq_true hview
  obtain ⟨hopen, hshown, -⟩ := revealed_viewportChanged fresh_standard hu hpin (some 1) ho i hi (.inl hin) [A]
    (List.cons_ne_nil A []) (hpath ▸ List.prefix_append [A] [f])
  exact ⟨fresh_standard, hu, hpin, o, i, ho, hi, hin, hpath, hopen, hshown⟩

end Session

end SymbolOutline
