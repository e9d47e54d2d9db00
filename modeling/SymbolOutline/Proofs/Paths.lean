import SymbolOutline.Outline
import SymbolOutline.Proofs.Forest

/-
Outlines whose items carry the paths that lead to them. Where siblings have different keys, a path
leads to one item only. A change at a path is then a change of the item that carries the path, at
every level at once (`modify_eq_mapAll`), and an item is found at the path it carries
(`item?_of_mem`).
-/

namespace SymbolOutline.Outline

open Forest Rose

/-- Every item of a forest that a path leads into carries the path that leads to it. -/
def Located (base : Path) (ts : Forest Item) : Prop := locateAll base ts = ts

instance (base : Path) (ts : Forest Item) : Decidable (Located base ts) :=
  inferInstanceAs (Decidable (_ = _))

variable {base : Path} {ts : Forest Item}

@[simp] theorem located_nil (base : Path) : Located base [] := rfl

theorem locateAll_cons (base : Path) (i : Item) (cs ts : Forest Item) :
    locateAll base (.node i cs :: ts) =
      .node { i with path := base ++ [i.key] } (locateAll (base ++ [i.key]) cs) ::
        locateAll base ts := rfl

theorem located_cons {i : Item} {cs : Forest Item} :
    Located base (.node i cs :: ts) ↔
      i.path = base ++ [i.key] ∧ Located (base ++ [i.key]) cs ∧ Located base ts := by
  unfold Located
  rw [locateAll_cons, List.cons.injEq, Rose.node.injEq]
  have : { i with path := base ++ [i.key] } = i ↔ i.path = base ++ [i.key] := by
    cases i
    simp only [Item.mk.injEq, true_and]
    exact eq_comm
  rw [this, and_assoc]

theorem located_append {ss ts : Forest Item} :
    Located base (ss ++ ts) ↔ Located base ss ∧ Located base ts := by
  induction ss with
  | nil => simp
  | cons s ss ih =>
    obtain ⟨i, cs⟩ := s
    rw [List.cons_append, located_cons, located_cons, ih, and_assoc, and_assoc]

theorem located_head_tail {t : Rose Item} :
    Located base (t :: ts) ↔ Located base [t] ∧ Located base ts := by
  rw [← located_append]; rfl

theorem located_locateAll (base : Path) (ts : Forest Item) : Located base (locateAll base ts) := by
  induction ts using induct_forest generalizing base with
  | nil => exact located_nil base
  | cons i cs ts ihc ih =>
    rw [locateAll_cons, located_cons]
    exact ⟨rfl, ihc _, ih _⟩

theorem located_ofForest (ts : Forest Item) : Located [] (ofForest ts) := located_locateAll [] ts

theorem map_key_locateAll (base : Path) (ts : Forest Item) :
    (locateAll base ts).map Rose.key = ts.map Rose.key := by
  induction ts with
  | nil => rfl
  | cons t ts ih =>
    obtain ⟨i, cs⟩ := t
    rw [locateAll_cons, List.map_cons, List.map_cons, ih]; rfl

theorem distinct_locateAll (base : Path) : Distinct (locateAll base ts) ↔ Distinct ts := by
  induction ts using induct_forest generalizing base with
  | nil => rfl
  | cons i cs ts ihc ih =>
    rw [locateAll_cons, distinct_cons, distinct_cons, children_node, children_node, ihc, ih,
      forall_key_ne, forall_key_ne, map_key_locateAll]
    rfl

theorem distinct_ofForest : Distinct (ofForest ts) ↔ Distinct ts := distinct_locateAll []

theorem located_mapAll {f : Item → Item} (hk : ∀ i, (f i).key = i.key)
    (hp : ∀ i, (f i).path = i.path) : Located base (mapAll f ts) ↔ Located base ts := by
  induction ts using induct_forest generalizing base with
  | nil => simp
  | cons i cs ts ihc ih =>
    rw [mapAll_cons, map_node, located_cons, located_cons, ihc, ih, hk, hp]

/-! ## The paths of items -/

/-- The path of an item begins with the path that leads into the forest and the key of a tree there. -/
theorem path_of_mem (hl : Located base ts) {i : Item} (hi : i ∈ valuesAll ts) :
    ∃ t ∈ ts, ∃ q, i.path = base ++ t.key :: q := by
  induction ts using induct_forest generalizing base with
  | nil => cases hi
  | cons j cs ts ihc ih =>
    obtain ⟨hj, hcs, hts⟩ := located_cons.1 hl
    rcases List.mem_cons.1 hi with rfl | hi
    · exact ⟨_, List.mem_cons_self .., [], hj⟩
    · rcases List.mem_append.1 hi with hi | hi
      · obtain ⟨t, -, q, hq⟩ := ihc hcs hi
        exact ⟨_, List.mem_cons_self .., t.key :: q, by rw [hq, List.append_assoc]; rfl⟩
      · obtain ⟨t, ht, q, hq⟩ := ih hts hi
        exact ⟨t, List.mem_cons_of_mem _ ht, q, hq⟩

theorem path_ne_base (hl : Located base ts) {i : Item} (hi : i ∈ valuesAll ts) : i.path ≠ base := by
  obtain ⟨t, -, q, hq⟩ := path_of_mem hl hi
  rw [hq]
  simp

/-- Where no tree has the first key of a path, no item carries an extension of it. -/
theorem path_ne_of_key_ne (hl : Located base ts) {i : Item} (hi : i ∈ valuesAll ts) {k : Key}
    (hk : ∀ t ∈ ts, t.key ≠ k) (q : Path) : i.path ≠ base ++ k :: q := by
  obtain ⟨t, ht, q', hq'⟩ := path_of_mem hl hi
  rw [hq']
  intro h
  exact hk t ht (List.cons.inj (List.append_cancel_left h)).1

theorem mapAll_ite_of_path_ne {β : Type} {φ ψ : Item → β} {p : Path}
    (h : ∀ i ∈ valuesAll ts, i.path ≠ p) :
    mapAll (fun i => if i.path = p then ψ i else φ i) ts = mapAll φ ts :=
  mapAll_congr fun i hi => if_neg (h i hi)

/-- Changing a mapped outline at a path is mapping it differently at the item that carries the
path. -/
theorem modify_eq_mapAll {β : Type} [Keyed β] {φ : Item → β} (hφ : ∀ i, Keyed.key (φ i) = i.key)
    (g : β → β) (hd : Distinct ts) (hl : Located base ts) (p : Path) :
    modify (setValue g) p (mapAll φ ts) =
      mapAll (fun i => if i.path = base ++ p then g (φ i) else φ i) ts := by
  have hφ' : ∀ i, Keyed.key (φ i) = Keyed.key i := hφ
  induction p generalizing base ts with
  | nil =>
    -- no item carries the path that leads into the forest
    refine (mapAll_ite_of_path_ne fun i hi => ?_).symm
    rw [List.append_nil]
    exact path_ne_base hl hi
  | cons k p ih =>
    cases hc : child? ts k with
    | none =>
      rw [mapAll_ite_of_path_ne fun i hi => path_ne_of_key_ne hl hi (child?_eq_none hc) p]
      refine modify_cons_eq_self _ p (child?_eq_none ?_)
      rw [child?_mapAll hφ', hc]; rfl
    | some t =>
      obtain ⟨rfl, pre, post, rfl, hpre⟩ := child?_eq_some hc
      obtain ⟨i, cs⟩ := t
      obtain ⟨-, hd, -⟩ := distinct_append.1 hd
      obtain ⟨hpost, hdc, -⟩ := distinct_cons.1 hd
      rw [children_node] at hdc
      obtain ⟨hlpre, hl⟩ := located_append.1 hl
      obtain ⟨hi, hlc, hlpost⟩ := located_cons.1 hl
      have hpre' : ∀ s ∈ mapAll φ pre, s.key ≠ ((node i cs).map φ).key := by
        rw [mapAll_eq_map, key_map hφ']
        simpa [key_map hφ'] using hpre
      have := @modify_cons_append _ _ (setValue g) p _ (mapAll φ post) _ hpre'
      rw [key_map hφ'] at this
      rw [mapAll_append, mapAll_cons, this, mapAll_append, mapAll_cons, map_node, map_node,
        mapAll_ite_of_path_ne fun j hj => path_ne_of_key_ne hlpre hj hpre p,
        mapAll_ite_of_path_ne fun j hj => path_ne_of_key_ne hlpost hj hpost p]
      -- what is left is the tree that the path leads to or into
      congr 2
      have hkey : (node i cs).key = i.key := rfl
      cases p with
      | nil =>
        rw [if_pos rfl, hkey, if_pos hi, setValue_node,
          mapAll_ite_of_path_ne fun j hj => path_ne_base hlc hj]
      | cons j p =>
        have hij : i.path ≠ base ++ i.key :: j :: p := by rw [hi]; simp
        rw [if_neg (List.cons_ne_nil j p), setChildren_node, ih hdc hlc, hkey, if_neg hij,
          List.append_assoc]
        rfl

/-- An item is found at the path it carries. -/
theorem find?_of_mem (hd : Distinct ts) (hl : Located base ts) {i : Item} (hi : i ∈ valuesAll ts)
    {p : Path} (hp : i.path = base ++ p) : (find? ts p).map Rose.value = some i := by
  induction ts using induct_forest generalizing base p with
  | nil => cases hi
  | cons j cs ts ihc ih =>
    obtain ⟨hj, hlc, hlt⟩ := located_cons.1 hl
    obtain ⟨hk, hdc, hdt⟩ := distinct_cons.1 hd
    rw [children_node] at hdc
    rcases List.mem_cons.1 hi with rfl | hi
    · obtain rfl : p = [i.key] := List.append_cancel_left (hp.symm.trans hj)
      simp [find?, child?, Rose.key, Keyed.key]
    · rcases List.mem_append.1 hi with hi | hi
      · obtain ⟨t, -, q, hq⟩ := path_of_mem hlc hi
        obtain rfl : p = j.key :: t.key :: q := by
          rw [hq, List.append_assoc] at hp
          exact (List.append_cancel_left hp).symm
        have : child? (node j cs :: ts) j.key = some (node j cs) := by
          simp [child?, Rose.key, Keyed.key]
        rw [find?, this]
        exact ihc hdc hlc hi hq
      · -- the first tree has another key, so the search passes it by
        obtain ⟨t, ht, q, hq⟩ := path_of_mem hlt hi
        obtain rfl : p = t.key :: q := (List.append_cancel_left (hq.symm.trans hp)).symm
        rw [← ih hdt hlt hi hq]
        have hne : ¬ (node j cs).key = t.key := (hk t ht).symm
        have : child? (node j cs :: ts) t.key = child? ts t.key := by simp [child?, hne]
        cases q with
        | nil => rw [find?, find?, this]
        | cons l q => rw [find?, find?, this]

/-- What is found at a path carries the path. -/
theorem path_of_find? (hl : Located base ts) {p : Path} {t : Rose Item} (h : find? ts p = some t) :
    t.value ∈ valuesAll ts ∧ t.value.path = base ++ p := by
  induction p generalizing base ts with
  | nil => simp [find?] at h
  | cons k p ih =>
    obtain ⟨s, hs, hst⟩ : ∃ s, child? ts k = some s ∧
        (p = [] ∧ t = s ∨ find? s.children p = some t) := by
      cases p with
      | nil => exact ⟨t, h, .inl ⟨rfl, rfl⟩⟩
      | cons j p =>
        rw [find?] at h
        obtain ⟨s, hs, h⟩ := Option.bind_eq_some_iff.1 h
        exact ⟨s, hs, .inr h⟩
    obtain ⟨rfl, pre, post, rfl, -⟩ := child?_eq_some hs
    obtain ⟨-, hl⟩ := located_append.1 hl
    obtain ⟨i, cs⟩ := s
    obtain ⟨hi, hlc, -⟩ := located_cons.1 hl
    have hmem : node i cs ∈ pre ++ node i cs :: post := by simp
    rcases hst with ⟨rfl, rfl⟩ | hst
    · exact ⟨value_mem_valuesAll hmem, hi⟩
    · obtain ⟨hv, hp⟩ := ih hlc hst
      refine ⟨mem_valuesAll_children hmem hv, ?_⟩
      rw [hp, List.append_assoc]; rfl

theorem item?_mapAll {f : Item → Item} (hf : ∀ i, (f i).key = i.key) (o : Outline) (p : Path) :
    item? (mapAll f o) p = (o.item? p).map f := by
  unfold item?
  rw [find?_mapAll (φ := f) hf]
  cases Forest.find? o p with
  | none => rfl
  | some t => cases t; rfl

/-! ## Whole outlines -/

/-- An outline whose siblings have different keys and whose items carry their paths. -/
structure WellKeyed (o : Outline) : Prop where
  distinct : Distinct o
  located : Located [] o

namespace WellKeyed

variable {o : Outline}

theorem ofForest (h : Distinct ts) : WellKeyed (ofForest ts) :=
  ⟨distinct_ofForest.2 h, located_ofForest ts⟩

theorem mapAll (h : WellKeyed o) {f : Item → Item} (hk : ∀ i, (f i).key = i.key)
    (hp : ∀ i, (f i).path = i.path) : WellKeyed (mapAll f o) :=
  ⟨(distinct_mapAll hk).2 h.distinct, (located_mapAll hk hp).2 h.located⟩

/-- Changing the item at a path is changing the item that carries the path. -/
theorem modifyItem_eq (h : WellKeyed o) {f : Item → Item} (p : Path) :
    modifyItem f p o = Rose.mapAll (fun i => if i.path = p then f i else i) o := by
  have := modify_eq_mapAll (φ := id) (fun _ => rfl) f h.distinct h.located p
  rwa [mapAll_eq_self (f := id) fun _ _ => rfl] at this

theorem modifyItem (h : WellKeyed o) {f : Item → Item} (hk : ∀ i, (f i).key = i.key)
    (hp : ∀ i, (f i).path = i.path) (p : Path) : WellKeyed (modifyItem f p o) := by
  rw [h.modifyItem_eq]
  refine h.mapAll (fun i => ?_) fun i => ?_
  · split
    · exact hk i
    · rfl
  · split
    · exact hp i
    · rfl

theorem item?_eq_some (h : WellKeyed o) {p : Path} {i : Item} :
    o.item? p = some i ↔ i ∈ o.items ∧ i.path = p := by
  unfold item?
  constructor
  · intro hi
    obtain ⟨t, ht, rfl⟩ := Option.map_eq_some_iff.1 hi
    exact path_of_find? h.located ht
  · rintro ⟨hi, rfl⟩
    exact find?_of_mem h.distinct h.located hi rfl

end WellKeyed

end SymbolOutline.Outline
