import SymbolOutline.Outline.Nesting
import SymbolOutline.Proofs.Effects

/-
Where a path leads in an outline, and that all that follow it come to the same entry
(`Outline.Built.lookups`).

A forest is taken apart at one of its trees: the tree, its siblings before it and behind it, and what is
around them (`Place`). A path leads to the one tree at which the forest comes apart with no sibling before
it that has its key, here or further up (`find?_eq_some_iff`). What is found, displayed, entered and changed
there is read off that. Where siblings have different keys, no tree is hidden by another one, and the path
that an entry carries is the path that leads to it.
-/

namespace SymbolOutline

open Forest Rose

namespace Forest

variable {α : Type}

/-! ## Places in a forest -/

/-- A place for a tree in a forest: what is around the tree and its siblings, and the siblings before it
and behind it. -/
structure Place (α : Type) where
  around : Surroundings α
  before : Forest α
  behind : Forest α

namespace Place

/-- The forest with a tree at a place. -/
def fill (x : Place α) (t : Rose α) : Forest α := within x.around (x.before ++ t :: x.behind)

variable [Keyed α]

/-- The path of a tree at a place. -/
def path (x : Place α) (t : Rose α) : Path := x.around.path ++ [t.key]

/-- A tree at a place is the first one among its siblings that has its key, and so are those around it. -/
structure First (x : Place α) (t : Rose α) : Prop where
  leads : x.around.Leads
  before_ne : ∀ s ∈ x.before, s.key ≠ t.key

end Place

variable [Keyed α] {p : Path} {ts : Forest α} {t : Rose α} {x : Place α}

/-- A path leads into the forest that it has around. -/
theorem container?_within {fs : Surroundings α} (h : fs.Leads) (cs : Forest α) :
    container? (within fs cs) fs.path = some cs := by
  induction fs with
  | nil => rfl
  | cons e fs ih =>
    obtain ⟨pre, a, post⟩ := e
    obtain ⟨hpre, hleads⟩ := List.forall_mem_cons.1 h
    let t : Rose α := node a (within fs cs)
    let p := Surroundings.path fs
    calc container? (pre ++ t :: post) (t.key :: p)
      _ = (child? (pre ++ t :: post) t.key).bind fun t => container? t.children p := rfl
      _ = container? (within fs cs) p := by rw [child?_append (t := t) hpre]; rfl
      _ = some cs := ih hleads

namespace Place.First

theorem find? (h : x.First t) : find? (x.fill t) (x.path t) = some t := by
  rw [path, find?_concat, fill, container?_within h.leads]
  exact child?_append h.before_ne

/-- A change of the tree at a place leaves what is around it, before it and behind it. -/
theorem modify (h : x.First t) (f : Rose α → Rose α) :
    modify f (x.path t) (x.fill t) = x.fill (f t) := by
  rw [path, modify_concat, fill, modifyContainer_within _ h.leads, modifyChild_append f h.before_ne, fill]

end Place.First

/-- A path leads to the tree, if any, that comes first at each level among those with the key there. -/
theorem find?_eq_some_iff :
    find? ts p = some t ↔ ∃ x : Place α, x.First t ∧ x.path t = p ∧ x.fill t = ts := by
  constructor
  · intro h
    induction p using List.reverseRecOn with
    | nil => cases h
    | append_singleton p k _ =>
      rw [find?_concat] at h
      obtain ⟨cs, hcs, ht⟩ := Option.bind_eq_some_iff.1 h
      obtain ⟨fs, hleads, rfl, rfl⟩ := exists_within hcs
      obtain ⟨rfl, pre, post, rfl, hpre⟩ := child?_eq_some ht
      exact ⟨⟨fs, pre, post⟩, ⟨hleads, hpre⟩, rfl, rfl⟩
  · rintro ⟨x, hfirst, rfl, rfl⟩
    exact hfirst.find?

/-- The empty path leads into the whole forest, and any other one to the children of a tree. -/
theorem container?_eq (ts : Forest α) (p : Path) :
    container? ts p = if p = [] then some ts else (find? ts p).map Rose.children := by
  induction p using List.reverseRecOn with
  | nil => rfl
  | append_singleton p k _ => rw [container?_concat, if_neg (by simp)]

/-! ## Where siblings have different keys -/

theorem leads_of_distinct {fs : Surroundings α} {cs : Forest α} (h : Distinct (within fs cs)) :
    fs.Leads ∧ Distinct cs := by
  induction fs with
  | nil => exact ⟨by simp [Surroundings.Leads], h⟩
  | cons e fs ih =>
    obtain ⟨pre, a, post⟩ := e
    obtain ⟨hleads, hcs⟩ := ih (distinct_remove h).1
    have hpre : ∀ s ∈ pre, s.key ≠ Keyed.key a := fun s hs =>
      key_ne_of_distinct h s (List.mem_append_left _ hs)
    exact ⟨List.forall_mem_cons.2 ⟨hpre, hleads⟩, hcs⟩

/-- No tree is hidden by another one. -/
theorem Place.first_of_distinct (h : Distinct (x.fill t)) : x.First t := by
  obtain ⟨hleads, hcs⟩ := leads_of_distinct h
  exact ⟨hleads, fun s hs => key_ne_of_distinct hcs s (List.mem_append_left _ hs)⟩

end Forest

namespace Outline

variable {base : Path} {ts : Forest Item}

/-! ## The paths that entries carry -/

theorem located_within {fs : Surroundings Item} {cs : Forest Item}
    (h : Located base (Forest.within fs cs)) : Located (base ++ fs.path) cs := by
  induction fs generalizing base with
  | nil =>
    rw [Surroundings.path, List.map_nil, List.append_nil]
    exact h
  | cons e fs ih =>
    obtain ⟨pre, i, post⟩ := e
    obtain ⟨-, hbelow, -⟩ := located_cons.1 (located_append.1 h).2
    have hcs : Located (base ++ [i.key] ++ Surroundings.path fs) cs := ih hbelow
    rwa [List.append_assoc] at hcs

/-- An entry carries the path of its place. -/
theorem path_fill {x : Place Item} {t : Rose Item} (h : Located [] (x.fill t)) :
    t.value.path = x.path t := by
  have hcs := located_within h
  obtain ⟨i, cs⟩ := t
  exact (located_cons.1 (located_append.1 hcs).2).1

theorem nodup_paths (hd : Distinct ts) (hl : Located base ts) :
    ((valuesAll ts).map Item.path).Nodup := by
  induction ts using induct_forest generalizing base with
  | nil => exact .nil
  | cons i cs ts ihc ih =>
    obtain ⟨hi, hlc, hlt⟩ := located_cons.1 hl
    obtain ⟨hkey, hdc, hdt⟩ := distinct_cons.1 hd
    rw [valuesAll_cons, List.map_cons, List.map_append, List.nodup_cons, List.nodup_append]
    refine ⟨?_, ihc hdc hlc, ih hdt hlt, ?_⟩
    · rw [← List.map_append, List.mem_map]
      rintro ⟨j, hj, hpath⟩
      rw [hi] at hpath
      rcases List.mem_append.1 hj with hj | hj
      · exact path_ne_base hlc hj hpath
      · exact path_ne_of_key_ne hlt hj hkey [] hpath
    · -- what is below the first entry has its key on the way, and what is beside it has not
      simp only [List.forall_mem_map]
      intro j hj k hk hpath
      obtain ⟨t, -, q, hq⟩ := path_of_mem hlc hj
      rw [hq, List.append_assoc] at hpath
      exact path_ne_of_key_ne hlt hk hkey (t.key :: q) hpath.symm

/-! ## Outlines as they are built -/

/-- The outlines of entries and those of symbols. -/
inductive Built : Outline → Prop
  | ofForest (ts : Forest Item) : Built (ofForest ts)
  | ofSymbols (hidden : List Kind) (symbols : Forest Symbol) : Built (ofSymbols hidden symbols)

theorem Built.located {o : Outline} (h : o.Built) : Located [] o := by
  cases h with
  | ofForest ts => exact located_ofForest ts
  | ofSymbols hidden symbols => exact located_ofForest _

/-- A path leads to the first of the entries with its keys, for whatever follows it: the display has there
what displays the entry, the path leads into the children of the entry, or into the outline if it is empty,
and a change at the path is a change of the entry and of nothing else. Where siblings have different keys,
every entry is found at the path that it carries, and no two carry the same one. -/
theorem Built.lookups {o : Outline} (h : o.Built) :
    (∀ p : Path,
      (∀ t, Forest.find? o p = some t ↔ ∃ x : Place Item, x.First t ∧ x.path t = p ∧ x.fill t = o) ∧
      (View.ofForest o).find? p = (Forest.find? o p).map (Rose.map Item.row) ∧
      container? o p = (if p = [] then some o else (Forest.find? o p).map Rose.children) ∧
      ∀ f : Rose Item → Rose Item,
        (Forest.find? o p = none → Forest.modify f p o = o) ∧
        ∀ (x : Place Item) (t : Rose Item), x.First t → x.path t = p → x.fill t = o →
          Forest.modify f p o = x.fill (f t)) ∧
    (Distinct o →
      (∀ (x : Place Item) (t : Rose Item), x.fill t = o → Forest.find? o t.value.path = some t) ∧
      (o.items.map Item.path).Nodup) := by
  have hdisplay (p : Path) := find?_mapAll (φ := Item.row) (fun _ => rfl) o p
  refine ⟨fun p => ⟨fun t => find?_eq_some_iff, hdisplay p, container?_eq o p,
    fun f => ⟨modify_eq_self f, ?_⟩⟩, fun hd => ⟨?_, nodup_paths hd h.located⟩⟩
  · rintro x t hfirst rfl rfl
    exact hfirst.modify f
  · rintro x t rfl
    rw [path_fill h.located]
    exact (Place.first_of_distinct hd).find?

/-- Of two siblings with one key, the second one and what is below it are out of reach. -/
theorem Built.lookups_twins :
    let item (name detail : String) := Item.fresh ⟨.function, name⟩ detail (.ofLines 0 0) (.ofLines 0 0)
    let key (name : String) : Key := ⟨.function, name⟩
    let twins : Outline := Outline.ofForest [node (item "a" "")
      [node (item "f" "1") [], node (item "f" "2") [node (item "g" "") []]]]
    let apart : Outline := Outline.ofForest
      [node (item "a" "") [node (item "f" "1") [], node (item "g" "") []]]
    (twins.Built ∧ Forest.find? twins [key "a", key "f", key "g"] = none ∧
      ∃ (x : Place Item) (t : Rose Item), x.fill t = twins ∧ t.value.detail = "1" ∧
        (View.ofForest twins).find? [key "a", key "f"] = some (t.map Item.row) ∧
        ∀ f : Rose Item → Rose Item, Forest.modify f [key "a", key "f"] twins = x.fill (f t)) ∧
    apart.Built ∧ Distinct apart ∧ (apart.items.map Item.path).Nodup := by
  intro item key twins apart
  have htwins : twins.Built := .ofForest _
  have hapart : apart.Built := .ofForest _
  have hdistinct : Distinct apart := by decide
  obtain ⟨t, ht, hdetail⟩ : ∃ t, Forest.find? twins [key "a", key "f"] = some t ∧ t.value.detail = "1" :=
    ⟨_, rfl, rfl⟩
  obtain ⟨hfind, hdisplay, -, hchange⟩ := htwins.lookups.1 [key "a", key "f"]
  obtain ⟨x, hfirst, hpath, hfill⟩ := (hfind t).1 ht
  refine ⟨⟨htwins, by decide, x, t, hfill, hdetail, ?_, fun f => (hchange f).2 x t hfirst hpath hfill⟩,
    hapart, hdistinct, (hapart.lookups.2 hdistinct).2⟩
  rw [hdisplay, ht]
  rfl

end Outline

end SymbolOutline
