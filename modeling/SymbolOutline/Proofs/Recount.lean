import Mathlib.Data.List.Induction
import SymbolOutline.Proofs.Address
import SymbolOutline.Proofs.Insertion
import SymbolOutline.Proofs.Provenance

/-
Lists of diagnostics put down one after the other. Each list is to take the place of the one before,
and for every entry that a path reaches it does. Tallies are wiped by path, though, and counted by
address, so an entry in the shadow of a sibling is counted and never wiped: it keeps what all lists
ever left there (`tallies_replay`).
-/

namespace SymbolOutline

open Forest Rose

theorem Tally.add_append (t : Tally) (found more : List (Outline.Address × Severity)) :
    t.add (found ++ more) = (t.add found).add more := by
  simp [Tally.add, UInt32.add_assoc, Bool.or_assoc]

namespace Outline

variable {o : Outline} {a : Address} {i : Item}

/-! ## What rests at an address -/

/-- What rests at or below an address, addressed from there. -/
def shareAt (a : Address) (found : List (Address × Severity)) : List (Address × Severity) :=
  a.foldl (fun found n => share n found) found

theorem shareAt_cons (n : Nat) (a : Address) (found : List (Address × Severity)) :
    shareAt (n :: a) found = shareAt a (share n found) := rfl

@[simp] theorem shareAt_nil (a : Address) : shareAt a [] = [] := by
  induction a with
  | nil => rfl
  | cons n a ih => exact ih

theorem ne_nil_of_shareAt {found : List (Address × Severity)} (h : shareAt a found ≠ []) :
    found ≠ [] := by
  rintro rfl
  exact h (shareAt_nil a)

theorem shareAt_append (a : Address) (found more : List (Address × Severity)) :
    shareAt a (found ++ more) = shareAt a found ++ shareAt a more := by
  induction a generalizing found more with
  | nil => rfl
  | cons n a ih =>
    have : share n (found ++ more) = share n found ++ share n more := List.filterMap_append ..
    rw [shareAt_cons, this, ih]; rfl

theorem getElem?_tallyFrom (n m : Nat) (found : List (Address × Severity)) (ts : Forest Item) :
    (tallyFrom n found ts)[m]? = ts[m]?.map (tally (share (n + m) found)) := by
  induction ts generalizing n m with
  | nil => rfl
  | cons t ts ih =>
    cases m with
    | zero => rfl
    | succ m =>
      rw [tallyFrom, List.getElem?_cons_succ, List.getElem?_cons_succ, ih]
      congr 3; omega

theorem touched_subset_touchedFrom (n : Nat) (found : List (Address × Severity)) {m : Nat}
    {t : Rose Item} {ts : Forest Item} (ht : ts[m]? = some t) :
    touched (share (n + m) found) t ⊆ touchedFrom n found ts := by
  induction ts generalizing n m with
  | nil => cases ht
  | cons s ts ih =>
    rw [touchedFrom]
    cases m with
    | zero =>
      obtain rfl := Option.some.inj ht
      exact List.subset_append_left ..
    | succ m =>
      have := ih (n + 1) ht
      rw [show n + 1 + m = n + (m + 1) by omega] at this
      exact List.subset_append_of_subset_right _ this

theorem valueAt?_tally (found : List (Address × Severity)) (t : Rose Item) (a : Address) :
    (tally found t).valueAt? a = (t.valueAt? a).map (Item.count (shareAt a found)) := by
  induction a generalizing t found with
  | nil => cases t; rfl
  | cons n a ih =>
    obtain ⟨i, cs⟩ := t
    rw [Rose.valueAt?, Rose.valueAt?, tally, children_node, children_node, getElem?_tallyFrom,
      Nat.zero_add]
    cases cs[n]? with
    | none => rfl
    | some u => exact ih _ u

theorem path_mem_touched {found : List (Address × Severity)} {t : Rose Item}
    (hi : t.valueAt? a = some i) (hne : shareAt a found ≠ []) : i.path ∈ touched found t := by
  induction a generalizing t found with
  | nil =>
    obtain ⟨j, cs⟩ := t
    obtain rfl : j = i := Option.some.inj hi
    rw [touched, if_neg (ne_nil_of_shareAt hne)]
    exact List.mem_cons_self ..
  | cons n a ih =>
    obtain ⟨j, cs⟩ := t
    obtain ⟨u, hu, hi⟩ := Option.bind_eq_some_iff.1 hi
    have hbelow := touched_subset_touchedFrom 0 found hu (by
      rw [Nat.zero_add]
      exact ih hi hne)
    rw [touched, if_neg (ne_nil_of_shareAt hne)]
    exact List.mem_cons_of_mem _ hbelow

theorem valueAt?_tallyFrom (found : List (Address × Severity)) (ts : Forest Item) (a : Address) :
    Forest.valueAt? (tallyFrom 0 found ts) a =
      (Forest.valueAt? ts a).map (Item.count (shareAt a found)) := by
  cases a with
  | nil => rfl
  | cons n a =>
    rw [Forest.valueAt?, Forest.valueAt?, getElem?_tallyFrom, Nat.zero_add]
    cases ts[n]? with
    | none => rfl
    | some u => exact valueAt?_tally (share n found) u a

theorem path_mem_touchedFrom {found : List (Address × Severity)} {ts : Forest Item}
    (hi : Forest.valueAt? ts a = some i) (hne : shareAt a found ≠ []) :
    i.path ∈ touchedFrom 0 found ts := by
  cases a with
  | nil => cases hi
  | cons n a =>
    obtain ⟨u, hu, hi⟩ := Option.bind_eq_some_iff.1 hi
    refine touched_subset_touchedFrom 0 found hu ?_
    rw [Nat.zero_add]
    exact path_mem_touched hi hne

/-- What lists of diagnostics, put down one after the other, bring to an address and below it. -/
def resting (o : Outline) (a : Address) (lists : List (List Diagnostic)) :
    List (Address × Severity) :=
  shareAt a (lists.flatMap fun ds => o.rests [] (Diagnostic.queue ds))

@[simp] theorem resting_nil (o : Outline) (a : Address) : o.resting a [] = [] := shareAt_nil a

theorem resting_append (o : Outline) (a : Address) (lists more : List (List Diagnostic)) :
    o.resting a (lists ++ more) = o.resting a lists ++ o.resting a more := by
  rw [resting, List.flatMap_append, shareAt_append]; rfl

theorem resting_of_untally_eq {o' : Outline} (h : o'.untally = o.untally) (a : Address)
    (lists : List (List Diagnostic)) : o'.resting a lists = o.resting a lists := by
  have hrests : ∀ o : Outline, ∀ ds, o.untally.rests [] ds = o.rests [] ds :=
    fun o ds => rests_mapAll (f := Item.untally) (fun _ => rfl) o [] ds
  unfold resting
  congr 2
  funext ds
  rw [← hrests, h, hrests]

/-! ## Wiping by path -/

theorem located_of_untally_eq {o' : Outline} (h : o'.untally = o.untally) (hl : Located [] o) :
    Located [] o' := by
  have untallied : ∀ o : Outline, Located [] o.untally ↔ Located [] o :=
    fun _ => located_mapAll (fun _ => rfl) fun _ => rfl
  rwa [← untallied, h, untallied]

theorem shadowed_of_untally_eq {o' : Outline} (h : o'.untally = o.untally) (a : Address) :
    Forest.Shadowed o' a ↔ Forest.Shadowed o a := by
  have untallied : ∀ o : Outline, Forest.Shadowed o.untally a ↔ Forest.Shadowed o a :=
    fun o => Forest.shadowed_mapAll (f := Item.untally) (fun _ => rfl) o a
  rw [← untallied, h, untallied]

/-- Wiping reaches every item that is not shadowed. -/
theorem valueAt?_wipe (hl : Located [] o) (hi : Forest.valueAt? o a = some i) (ps : List Path) :
    Forest.valueAt? (wipe ps o) a =
      some (if i.path ∈ ps ∧ ¬ Forest.Shadowed o a then i.untally else i) := by
  induction ps generalizing o i with
  | nil => simp [wipe, hi]
  | cons p ps ih =>
    have hfirst : (modifyItem Item.untally p o).untally = o.untally := untally_wipe [p] o
    have hmodify := valueAt?_modify (f := Item.untally) hl hi p
    show Forest.valueAt? (wipe ps (modifyItem Item.untally p o)) a = _
    simp only [ih (located_of_untally_eq hfirst hl) hmodify, shadowed_of_untally_eq hfirst]
    by_cases hs : Forest.Shadowed o a
    · simp [hs]
    · by_cases hp : i.path = p
      · simp [hs, hp, Item.untally]
      · simp [hs, hp]

end Outline

/-! ## List after list -/

namespace Badges

open Outline

variable {b : Badges} {o : Outline} {a : Address} {i : Item}

theorem valueAt?_apply (b : Badges) (hl : Located [] o) (hi : Forest.valueAt? o a = some i)
    (ds : List Diagnostic) :
    Forest.valueAt? (b.apply o ds).2.1 a =
      some ((if i.path ∈ b.touched ∧ ¬ Forest.Shadowed o a then i.untally else i).count
        (o.resting a [ds])) := by
  have hwiped := valueAt?_wipe hl hi b.touched.toList
  show Forest.valueAt? (tallyFrom 0 _ (wipe b.touched.toList o)) a = _
  rw [valueAt?_tallyFrom, hwiped, ← resting_of_untally_eq (untally_wipe b.touched.toList o)]
  simp [resting, PathSet.mem_def]

theorem path_mem_touched_apply (b : Badges) (hl : Located [] o)
    (hi : Forest.valueAt? o a = some i) (ds : List Diagnostic) (hne : o.resting a [ds] ≠ []) :
    i.path ∈ (b.apply o ds).1.touched := by
  have hwiped := valueAt?_wipe hl hi b.touched.toList
  have hpath : (if i.path ∈ b.touched.toList ∧ ¬ Forest.Shadowed o a then i.untally else i).path =
      i.path := by split <;> rfl
  rw [← resting_of_untally_eq (untally_wipe b.touched.toList o)] at hne
  show i.path ∈ PathSet.ofList (touchedFrom 0 _ (wipe b.touched.toList o))
  rw [PathSet.mem_ofList, ← hpath]
  exact path_mem_touchedFrom hwiped (by simpa [resting] using hne)

theorem untally_replay (lists : List (List Diagnostic)) (b : Badges) (o : Outline) :
    (replay lists (b, o)).2.untally = o.untally := by
  induction lists generalizing b o with
  | nil => rfl
  | cons ds lists ih => exact (ih _ _).trans (untally_apply b o ds)

/-- An item counts what the last list leaves at its address; one that is shadowed counts what all
lists leave there. -/
theorem valueAt?_replay (hl : Located [] o) (hz : o.untally = o)
    (hi : Forest.valueAt? o a = some i) (lists : List (List Diagnostic)) :
    Forest.valueAt? (replay lists (.none, o)).2 a =
        some (i.count (o.resting a (if Forest.Shadowed o a then lists else lists.getLast?.toList))) ∧
      (o.resting a lists.getLast?.toList ≠ [] → i.path ∈ (replay lists (.none, o)).1.touched) := by
  -- what the last list leaves somewhere is remembered, so the next list wipes it where it can
  induction lists using List.reverseRecOn with
  | nil =>
    have hcount : i.count [] = i := by simp [Item.count]
    simp [replay, hi, hcount]
  | append_singleton lists ds ih =>
    obtain ⟨hvalue, htouched⟩ := ih
    rw [replay_concat]
    generalize hstart : replay lists (.none, o) = start at hvalue htouched ⊢
    have hu : start.2.untally = o.untally := by
      rw [← hstart, untally_replay]
    have hl' : Located [] start.2 := located_of_untally_eq hu hl
    have hlast : (lists ++ [ds]).getLast?.toList = [ds] := by simp
    have hrest := resting_of_untally_eq hu a [ds]
    rw [hlast]
    refine ⟨?_, fun hne => path_mem_touched_apply start.1 hl' hvalue ds (hrest ▸ hne)⟩
    simp only [valueAt?_apply start.1 hl' hvalue ds, hrest, shadowed_of_untally_eq hu]
    by_cases hs : Forest.Shadowed o a
    · simp [hs, Item.count, resting_append, Tally.add_append]
    · have hzero : i.untally = i := by
        have := Forest.valueAt?_mapAll Item.untally o a
        rw [show mapAll Item.untally o = o from hz, hi] at this
        exact (Option.some.inj this).symm
      have hwiped : (if i.path ∈ start.1.touched then i
          else i.count (o.resting a lists.getLast?.toList)) = i := by
        split
        · rfl
        · rename_i hp
          have hnil := Decidable.byContradiction fun hne => hp (htouched hne)
          simp [hnil, Item.count]
      have hcount : ∀ found, (i.count found).untally = i := fun _ => hzero
      have hpath : ∀ found, (i.count found).path = i.path := fun _ => rfl
      simp [hs, hcount, hpath, hwiped]

theorem tallyAt?_replay (hl : Located [] o) (hz : o.untally = o) (lists : List (List Diagnostic))
    (a : Address) :
    Forest.valueAt? (replay lists (.none, o)).2.tallies a = (Forest.valueAt? o a).map fun _ =>
      Tally.zero.add (o.resting a (if Forest.Shadowed o a then lists else lists.getLast?.toList)) := by
  have untallied : ∀ o : Outline,
      Forest.valueAt? o.untally a = (Forest.valueAt? o a).map Item.untally :=
    fun o => Forest.valueAt?_mapAll Item.untally o a
  rw [tallies, Forest.valueAt?_mapAll]
  cases hi : Forest.valueAt? o a with
  | none =>
    have hnone := untallied (replay lists (.none, o)).2
    rw [untally_replay, untallied, hi] at hnone
    rw [Option.map_eq_none_iff.1 hnone.symm]; rfl
  | some i =>
    have hzero : i.untally = i := by
      have := untallied o
      rw [hz, hi] at this
      exact (Option.some.inj this).symm
    rw [(valueAt?_replay hl hz hi lists).1, ← hzero]; rfl

/-- The tallies after several lists are those that the last list alone gives, except where an entry is
shadowed: there the lists add up. So the last list alone decides exactly if what the earlier ones left
on the shadowed entries does not show. -/
theorem tallies_replay (hidden : List Kind) (symbols : Forest Symbol)
    (lists : List (List Diagnostic)) (ds : List Diagnostic) :
    let o := ofSymbols hidden symbols
    let all := (replay (lists ++ [ds]) (.none, o)).2.tallies
    let last := (Badges.none.apply o ds).2.1.tallies
    (∀ a, ¬ Forest.Shadowed o a → Forest.valueAt? all a = Forest.valueAt? last a) ∧
      (∀ a, Forest.Shadowed o a → Forest.valueAt? all a =
        (Forest.valueAt? o a).map fun _ => Tally.zero.add (o.resting a (lists ++ [ds]))) ∧
      (all = last ↔ ∀ a, Forest.Shadowed o a → (Forest.valueAt? o a).isSome →
        Tally.zero.add (o.resting a (lists ++ [ds])) = Tally.zero.add (o.resting a [ds])) := by
  intro o all last
  have hl : Located [] o := located_ofForest _
  have hz : o.untally = o := untally_eq_self (tally_ofSymbols hidden symbols)
  have hall : ∀ a, Forest.valueAt? all a = (Forest.valueAt? o a).map fun _ => Tally.zero.add
      (o.resting a (if Forest.Shadowed o a then lists ++ [ds] else [ds])) := by
    intro a
    have := tallyAt?_replay hl hz (lists ++ [ds]) a
    rwa [show (lists ++ [ds]).getLast?.toList = [ds] by simp] at this
  have hlast : ∀ a, Forest.valueAt? last a =
      (Forest.valueAt? o a).map fun _ => Tally.zero.add (o.resting a [ds]) := by
    intro a
    have := tallyAt?_replay hl hz [ds] a
    rwa [show [ds].getLast?.toList = [ds] from rfl, ite_self] at this
  have hreached : ∀ a, ¬ Forest.Shadowed o a → Forest.valueAt? all a = Forest.valueAt? last a := by
    intro a hs
    rw [hall, hlast, if_neg hs]
  have hshadowed : ∀ a, Forest.Shadowed o a → Forest.valueAt? all a =
      (Forest.valueAt? o a).map fun _ => Tally.zero.add (o.resting a (lists ++ [ds])) := by
    intro a hs
    rw [hall, if_pos hs]
  refine ⟨hreached, hshadowed, fun heq a hs hi => ?_, fun h => Forest.ext_valueAt? fun a => ?_⟩
  · have := hshadowed a hs
    rw [heq, hlast] at this
    obtain ⟨i, hi⟩ := Option.isSome_iff_exists.1 hi
    rw [hi] at this
    exact (Option.some.inj this).symm
  · by_cases hs : Forest.Shadowed o a
    · rw [hshadowed a hs, hlast]
      cases hi : Forest.valueAt? o a with
      | none => rfl
      | some i => exact congrArg some (h a hs (by rw [hi]; rfl))
    · exact hreached a hs

/-- Of two functions with one name, the second keeps its error when there are none any more. -/
theorem tallies_replay_overloaded :
    let overload (line : Nat) : Rose Symbol :=
      node ⟨⟨.function, "f"⟩, .none, .ofLines line (line + 1), .ofLines line line⟩ []
    let o := ofSymbols [] [overload 0, overload 3]
    let error : Diagnostic := ⟨.ofLines 3 3, some .error, .none, .none, ""⟩
    (replay [[error], []] (.none, o)).2.tallies ≠ (Badges.none.apply o []).2.1.tallies := by
  simp only [ofSymbols_eq_inserted]
  decide +kernel

end Badges

end SymbolOutline
