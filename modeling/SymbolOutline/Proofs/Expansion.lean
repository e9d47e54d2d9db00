import SymbolOutline.Proofs.Paths

/-
Lending expansion. In an outline whose siblings have different keys, lending entries expands and
collapses each item as the last entry for its path says (`lendExpansion_eq`), and to put the entries
in the order of paths first makes no difference (`lend_ofEntries`).
-/

namespace SymbolOutline

/-- An item expanded or collapsed as the entries for its path say, one after the other. -/
def Item.lend (entries : List (Path × Bool)) (i : Item) : Item :=
  entries.foldl (fun i e => if i.path = e.1 then { i with expanded := e.2 } else i) i

namespace Item

variable {i : Item}

@[simp] theorem lend_nil : i.lend [] = i := rfl

theorem lend_cons (e : Path × Bool) (es : List (Path × Bool)) :
    i.lend (e :: es) = (if i.path = e.1 then { i with expanded := e.2 } else i).lend es := rfl

theorem lend_append (ds es : List (Path × Bool)) : i.lend (ds ++ es) = (i.lend ds).lend es :=
  List.foldl_append

/-- Lending changes nothing but whether an item is expanded. -/
theorem lend_eq (es : List (Path × Bool)) (i : Item) : ∃ b, i.lend es = { i with expanded := b } := by
  induction es generalizing i with
  | nil => exact ⟨i.expanded, rfl⟩
  | cons e es ih =>
    rw [lend_cons]
    split
    · obtain ⟨b, hb⟩ := ih { i with expanded := e.2 }
      exact ⟨b, hb⟩
    · exact ih i

@[simp] theorem lend_key (es : List (Path × Bool)) (i : Item) : (i.lend es).key = i.key := by
  obtain ⟨b, hb⟩ := lend_eq es i
  rw [hb]

@[simp] theorem lend_path (es : List (Path × Bool)) (i : Item) : (i.lend es).path = i.path := by
  obtain ⟨b, hb⟩ := lend_eq es i
  rw [hb]

@[simp] theorem lend_tally (es : List (Path × Bool)) (i : Item) : (i.lend es).tally = i.tally := by
  obtain ⟨b, hb⟩ := lend_eq es i
  rw [hb]

theorem lend_of_forall_ne {es : List (Path × Bool)} (h : ∀ e ∈ es, i.path ≠ e.1) :
    i.lend es = i := by
  induction es with
  | nil => rfl
  | cons e es ih =>
    rw [lend_cons, if_neg (h e (List.mem_cons_self ..)),
      ih fun d hd => h d (List.mem_cons_of_mem _ hd)]

end Item

/-! ## Entries in the order of paths -/

namespace Expansion

/-- A record has one entry for a path, and its entries are in the order of paths. -/
def Ordered (es : Expansion) : Prop := es.Pairwise fun d e => d.1 < e.1

theorem mem_record {p : Path} {b : Bool} {es : Expansion} {d : Path × Bool}
    (h : d ∈ record p b es) : d.1 = p ∨ d ∈ es := by
  induction es with
  | nil =>
    obtain rfl := List.mem_singleton.1 h
    exact .inl rfl
  | cons e es ih =>
    unfold record at h
    split at h
    · rcases List.mem_cons.1 h with rfl | h
      · exact .inl rfl
      · exact .inr h
    · split at h
      · rename_i hpe
        rcases List.mem_cons.1 h with rfl | h
        · exact .inl hpe.symm
        · exact .inr (List.mem_cons_of_mem _ h)
      · rcases List.mem_cons.1 h with rfl | h
        · exact .inr (List.mem_cons_self ..)
        · exact (ih h).imp_right (List.mem_cons_of_mem _)

theorem ordered_record (p : Path) (b : Bool) {es : Expansion} (h : Ordered es) :
    Ordered (record p b es) := by
  induction es with
  | nil => exact List.pairwise_singleton _ _
  | cons e es ih =>
    obtain ⟨he, hes⟩ := List.pairwise_cons.1 h
    unfold record
    split
    · rename_i hp
      refine List.pairwise_cons.2 ⟨fun d hd => ?_, h⟩
      rcases List.mem_cons.1 hd with rfl | hd
      · exact hp
      · exact Path.lt_trans hp (he d hd)
    · rename_i hp
      split
      · exact List.pairwise_cons.2 ⟨he, hes⟩
      · rename_i hne
        refine List.pairwise_cons.2 ⟨fun d hd => ?_, ih hes⟩
        rcases mem_record hd with hd | hd
        · rw [hd]
          exact ((Path.lt_trichotomy p e.1).resolve_left hp).resolve_left hne
        · exact he d hd

theorem lend_record_of_ne {p : Path} {i : Item} (hi : i.path ≠ p) (b : Bool) (es : Expansion) :
    i.lend (record p b es) = i.lend es := by
  induction es generalizing i with
  | nil => exact Item.lend_of_forall_ne fun d hd => by rw [List.mem_singleton.1 hd]; exact hi
  | cons e es ih =>
    unfold record
    split
    · rw [Item.lend_cons, if_neg hi]
    · split
      · rename_i hpe
        have hie : i.path ≠ e.1 := hpe ▸ hi
        rw [Item.lend_cons, if_neg hie, Item.lend_cons, if_neg hie]
      · rw [Item.lend_cons, Item.lend_cons, ih (by split <;> exact hi)]

theorem lend_record_self (i : Item) (b : Bool) {es : Expansion} (h : Ordered es) :
    i.lend (record i.path b es) = { i with expanded := b } := by
  induction es with
  | nil => exact if_pos rfl
  | cons e es ih =>
    obtain ⟨he, hes⟩ := List.pairwise_cons.1 h
    -- an entry with a greater path leaves the item as it is
    have after : ∀ {ds : Expansion}, (∀ d ∈ ds, i.path < d.1) →
        { i with expanded := b }.lend ds = { i with expanded := b } := fun hds =>
      Item.lend_of_forall_ne fun d hd hp => Path.lt_irrefl d.1 (hp ▸ hds d hd)
    unfold record
    split
    · rename_i hp
      rw [Item.lend_cons, if_pos rfl]
      refine after fun d hd => ?_
      rcases List.mem_cons.1 hd with rfl | hd
      · exact hp
      · exact Path.lt_trans hp (he d hd)
    · split
      · rename_i hp
        rw [Item.lend_cons, if_pos hp]
        exact after fun d hd => hp ▸ he d hd
      · rename_i hp
        rw [Item.lend_cons, if_neg hp, ih hes]

/-- Recording the state of a path comes to the same as an entry for it behind all others. -/
theorem lend_record (p : Path) (b : Bool) {es : Expansion} (h : Ordered es) (i : Item) :
    i.lend (record p b es) = (i.lend es).lend [(p, b)] := by
  rw [Item.lend_cons, Item.lend_path, Item.lend_nil]
  split
  · rename_i hi
    subst hi
    obtain ⟨c, hc⟩ := Item.lend_eq es i
    rw [lend_record_self i b h, hc]
  · rename_i hi
    exact lend_record_of_ne hi b es

theorem ordered_ofEntries_lend (es : List (Path × Bool)) {known : Expansion} (h : Ordered known) :
    Ordered (es.foldl (fun known e => record e.1 e.2 known) known) ∧
      ∀ i : Item, i.lend (es.foldl (fun known e => record e.1 e.2 known) known) =
        (i.lend known).lend es := by
  induction es generalizing known with
  | nil => exact ⟨h, fun i => rfl⟩
  | cons e es ih =>
    obtain ⟨ho, hl⟩ := ih (ordered_record e.1 e.2 h)
    refine ⟨ho, fun i => ?_⟩
    rw [List.foldl_cons, hl, lend_record e.1 e.2 h]; rfl

/-- Entries may be put in the order of paths before they are lent. -/
theorem lend_ofEntries (es : List (Path × Bool)) (i : Item) : i.lend (ofEntries es) = i.lend es :=
  (ordered_ofEntries_lend es .nil).2 i

end Expansion

/-- Lending expands and collapses each item by itself. -/
theorem Outline.lendExpansion_eq {o : Outline} (h : o.WellKeyed) (es : List (Path × Bool)) :
    lendExpansion es o = Rose.mapAll (Item.lend es) o := by
  induction es generalizing o with
  | nil => exact (Rose.mapAll_eq_self fun _ _ => rfl).symm
  | cons e es ih =>
    have hset : WellKeyed (setExpanded e.2 e.1 o) :=
      h.modifyItem (f := fun i => { i with expanded := e.2 }) (fun _ => rfl) (fun _ => rfl) e.1
    show lendExpansion es (setExpanded e.2 e.1 o) = _
    rw [ih hset]
    unfold setExpanded
    rw [h.modifyItem_eq, Rose.mapAll_mapAll]
    rfl

end SymbolOutline
