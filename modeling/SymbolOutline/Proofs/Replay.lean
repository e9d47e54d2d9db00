import SymbolOutline.Proofs.Badges

/-
Where the tallies of an outline come from. They depend on ranges, paths and the lists of diagnostics
put down, and not on what the editor has made of the outline (`apply_unlit`). So putting lists down
one after the other can be replayed on the bare outline, of which nothing is expanded, in view, in
focus or counted.
-/

namespace SymbolOutline

open Forest Rose

/-! ## Ranges alone say what rests where -/

namespace Outline

section

variable {f : Item → Item} (hf : ∀ i, (f i).range = i.range)
include hf

theorem descendFrom_mapAll (d : Span) (n : Nat) (ts : Forest Item) :
    descendFrom d n (mapAll f ts) = descendFrom d n ts := by
  induction ts using induct_forest generalizing n with
  | nil => rfl
  | cons i cs ts ihc ih =>
    rw [mapAll_cons, map_node, descendFrom, descendFrom, descend, descend, value_node, value_node, hf,
      ihc, ih]

theorem settle?_mapAll (d : Span) (ts : Forest Item) (a : Address) :
    settle? d (mapAll f ts) a = settle? d ts a := by
  induction a generalizing ts with
  | nil => rfl
  | cons n a ih =>
    rw [settle?, settle?, mapAll_eq_map, List.getElem?_map]
    cases ts[n]? with
    | none => rfl
    | some t =>
      obtain ⟨i, cs⟩ := t
      simp only [Option.map_some, map_node, children_node, value_node, hf, ih, descend,
        descendFrom_mapAll hf]
      cases settle? d cs a <;> rfl

theorem rests_mapAll (o : Outline) (before : Address) (ds : List (Span × Severity)) :
    rests (mapAll f o) before ds = rests o before ds := by
  induction ds generalizing before with
  | nil => rfl
  | cons d ds ih =>
    have here : rest (mapAll f o) before d.1 = rest o before d.1 := by
      unfold rest
      rw [settle?_mapAll hf, descendFrom_mapAll hf]
    rw [rests, rests, here, ih]

end

theorem tallyFrom_mapAll {f : Item → Item} (hf : ∀ found i, (f i).count found = f (i.count found))
    (n : Nat) (found : List (Address × Severity)) (ts : Forest Item) :
    tallyFrom n found (mapAll f ts) = mapAll f (tallyFrom n found ts) := by
  induction ts using induct_forest generalizing n found with
  | nil => rfl
  | cons i cs ts ihc ih =>
    rw [mapAll_cons, map_node, tallyFrom_cons, tallyFrom_cons, mapAll_cons, map_node, hf, ihc, ih]

theorem touchedFrom_mapAll {f : Item → Item} (hf : ∀ i, (f i).path = i.path) (n : Nat)
    (found : List (Address × Severity)) (ts : Forest Item) :
    touchedFrom n found (mapAll f ts) = touchedFrom n found ts := by
  induction ts using induct_forest generalizing n found with
  | nil => rfl
  | cons i cs ts ihc ih =>
    rw [mapAll_cons, map_node, touchedFrom_cons, touchedFrom_cons, hf, ihc, ih]

theorem wipe_unlit (ps : List Path) (o : Outline) : wipe ps o.unlit = (wipe ps o).unlit := by
  induction ps generalizing o with
  | nil => rfl
  | cons p ps ih =>
    show wipe ps (modifyItem Item.untally p o.unlit) = (wipe ps (modifyItem Item.untally p o)).unlit
    rw [← ih]
    congr 1
    exact modify_mapAll (φ := Item.unlit) (f := setValue Item.untally) (g := setValue Item.untally)
      (fun _ => rfl) (fun t => by cases t; rfl) p o

/-- The outline without tallies. -/
def untally (o : Outline) : Outline := mapAll Item.untally o

theorem untally_wipe (ps : List Path) (o : Outline) : (wipe ps o).untally = o.untally := by
  induction ps generalizing o with
  | nil => rfl
  | cons p ps ih =>
    show (wipe ps (modifyItem Item.untally p o)).untally = _
    rw [ih]
    exact mapAll_modify (f := Item.untally) (φ := Item.untally) (fun _ => rfl) p o

/-- The outline with nothing expanded, in view, in focus or counted. -/
def bare (o : Outline) : Outline := o.unlit.untally

theorem bare_eq (o : Outline) : o.bare = o.untally.unlit := by
  unfold bare unlit untally
  rw [mapAll_mapAll, mapAll_mapAll]; rfl

/-- The tallies of an outline. -/
def tallies (o : Outline) : Forest Tally := mapAll Item.tally o

theorem tallies_unlit (o : Outline) : o.unlit.tallies = o.tallies := mapAll_mapAll ..

end Outline

/-! ## Lists put down one after the other -/

namespace Badges

/-- Putting down diagnostics does not look at what the editor has made of an outline. -/
theorem apply_unlit (b : Badges) (o : Outline) (ds : List Diagnostic) :
    (b.apply o.unlit ds).1 = (b.apply o ds).1 ∧
      (b.apply o.unlit ds).2.1 = (b.apply o ds).2.1.unlit := by
  have hrests : Outline.rests (Outline.wipe b.touched.toList o.unlit) [] (Diagnostic.queue ds) =
      Outline.rests (Outline.wipe b.touched.toList o) [] (Diagnostic.queue ds) := by
    rw [Outline.wipe_unlit]
    exact Outline.rests_mapAll (f := Item.unlit) (fun _ => rfl) _ _ _
  constructor
  · show Badges.mk (PathSet.ofList (Outline.touchedFrom _ _ _)) =
      Badges.mk (PathSet.ofList (Outline.touchedFrom _ _ _))
    rw [hrests, Outline.wipe_unlit]
    congr 2
    exact Outline.touchedFrom_mapAll (f := Item.unlit) (fun _ => rfl) _ _ _
  · show Outline.tallyFrom _ _ _ = Outline.unlit (Outline.tallyFrom _ _ _)
    rw [hrests, Outline.wipe_unlit]
    exact Outline.tallyFrom_mapAll (f := Item.unlit) (fun _ _ => rfl) _ _ _

/-- Putting down diagnostics gives items other tallies and does nothing else. -/
theorem untally_apply (b : Badges) (o : Outline) (ds : List Diagnostic) :
    (b.apply o ds).2.1.untally = o.untally :=
  (Outline.mapAll_untally_tallyFrom _ _ _).trans (Outline.untally_wipe _ _)

theorem map_key_apply (b : Badges) (o : Outline) (ds : List Diagnostic) :
    (b.apply o ds).2.1.map Rose.key = o.map Rose.key := by
  have h := congrArg (List.map Rose.key) (b.untally_apply o ds)
  unfold Outline.untally at h
  rwa [map_key_mapAll (φ := Item.untally) fun _ => rfl, map_key_mapAll (φ := Item.untally) fun _ => rfl] at h

theorem bare_apply (b : Badges) (o : Outline) (ds : List Diagnostic) :
    (b.apply o ds).2.1.bare = o.bare := by
  rw [Outline.bare_eq, Outline.bare_eq, untally_apply]

/-- Puts down lists of diagnostics one after the other. -/
def replay (lists : List (List Diagnostic)) (start : Badges × Outline) : Badges × Outline :=
  lists.foldl (fun now ds => ((now.1.apply now.2 ds).1, (now.1.apply now.2 ds).2.1)) start

theorem replay_concat (lists : List (List Diagnostic)) (ds : List Diagnostic)
    (start : Badges × Outline) :
    replay (lists ++ [ds]) start =
      (((replay lists start).1.apply (replay lists start).2 ds).1,
        ((replay lists start).1.apply (replay lists start).2 ds).2.1) := by
  simp [replay]

end Badges

end SymbolOutline
