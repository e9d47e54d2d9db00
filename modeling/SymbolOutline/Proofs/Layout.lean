import SymbolOutline.Proofs.Descent

/-
How an outline is laid out (`laidOut_ofSymbols`): siblings in order and none within another, at every
level; an entry that is not within the one above it is where its symbol was; and the path of an entry
is that of the one above it and its own key.
-/

namespace SymbolOutline

open Rose Forest

namespace Outline

/-! ## Beside an entry -/

/-- Of two siblings, `i` comes before `j` and neither lies within the other. -/
structure Beside (i j : Item) : Prop where
  start : i.range.start ≤ j.range.start
  stop : i.range.start = j.range.start → j.range.stop ≤ i.range.stop
  not_covers : ¬ i.range.Covers j.range
  not_covered : ¬ j.range.Covers i.range

theorem precedes_total (s t : Rose Item) : Precedes s t ∨ Precedes t s := by
  by_cases hts : t.value.range.start ≤ s.value.range.start
  · by_cases hst : s.value.range.start ≤ t.value.range.start
    · have hstart := Position.le_antisymm hst hts
      rcases Position.le_total t.value.range.stop s.value.range.stop with hstop | hstop
      · exact .inl (.inr ⟨hstart, hstop⟩)
      · exact .inr (.inr ⟨hstart.symm, hstop⟩)
    · exact .inr (.inl hst)
  · exact .inl (.inl hts)

theorem Precedes.trans {s t u : Rose Item} (h : Precedes s t) (h' : Precedes t u) :
    Precedes s u := by
  by_cases hus : u.value.range.start ≤ s.value.range.start
  · -- no two of the three start apart
    rcases h with hts | ⟨hst, hstop⟩
    · refine absurd ?_ hts
      rcases h' with hut | ⟨htu, -⟩
      · exact Position.le_trans ((Position.le_total _ _).resolve_right hut) hus
      · rwa [htu]
    · rcases h' with hut | ⟨htu, hstop'⟩
      · exact absurd (hst ▸ hus) hut
      · exact .inr ⟨hst.trans htu, Position.le_trans hstop' hstop⟩
  · exact .inl hus

theorem pairwise_sort (ts : Forest Item) : (sort ts).Pairwise Precedes := by
  have hsorted : (sort ts).Pairwise fun s t => decide (Precedes s t) = true := by
    refine List.pairwise_mergeSort ?_ (fun s t => by simpa using precedes_total s t) ts
    exact fun s t u h h' => decide_eq_true ((of_decide_eq_true h).trans (of_decide_eq_true h'))
  exact hsorted.imp of_decide_eq_true

theorem Precedes.beside {s t : Rose Item} (h : Precedes s t)
    (hst : ¬ s.value.range.Covers t.value.range) : Beside s.value t.value := by
  rcases h with hts | ⟨hstart, hstop⟩
  · have hle := (Position.le_total s.value.range.start t.value.range.start).resolve_right hts
    refine ⟨hle, fun heq => ?_, hst, fun hcovers => hts hcovers.1⟩
    exact absurd (heq ▸ Position.le_refl _) hts
  · exact absurd ⟨hstart ▸ Position.le_refl _, hstop⟩ hst

/-- Gathering leaves beside each other only some of the trees there were. -/
theorem exists_of_mem_gather {ts : Forest Item} {u : Rose Item} (h : u ∈ gather ts) :
    ∃ t ∈ ts, t.value = u.value := by
  fun_induction gather ts with
  | case1 => cases h
  | case2 t ts ih =>
    rcases List.mem_cons.1 h with rfl | h
    · obtain ⟨i, cs⟩ := t
      exact ⟨_, List.mem_cons_self .., rfl⟩
    · obtain ⟨s, hs, hvalue⟩ := ih h
      exact ⟨s, List.mem_cons_of_mem _ (List.mem_filter.1 hs).1, hvalue⟩

theorem pairwise_gather {ts : Forest Item} (h : ts.Pairwise Precedes) :
    (gather ts).Pairwise fun s t => Beside s.value t.value := by
  fun_induction gather ts with
  | case1 => exact .nil
  | case2 t ts ih =>
    obtain ⟨hfirst, hrest⟩ := List.pairwise_cons.1 h
    refine List.pairwise_cons.2 ⟨fun u hu => ?_, ih (hrest.sublist List.filter_sublist)⟩
    obtain ⟨s, hs, hvalue⟩ := exists_of_mem_gather hu
    obtain ⟨hmem, hbeyond⟩ := List.mem_filter.1 hs
    have := (hfirst s hmem).beside (of_decide_eq_true hbeyond)
    obtain ⟨i, cs⟩ := t
    rwa [hvalue] at this

theorem beside_nest (ts : Forest Item) (a : List Nat) {m n : Nat} {i j : Item} (hmn : m < n)
    (hi : valueAt? (nest ts) (a ++ [m]) = some i) (hj : valueAt? (nest ts) (a ++ [n]) = some j) :
    Beside i j := by
  induction ts using nest.induct generalizing a with
  | case1 ts ih =>
    rw [nest_eq] at hi hj
    cases a with
    | nil =>
      -- siblings at the top are what gathering has left of a sorted list
      obtain ⟨s, hs, hsi⟩ := Option.bind_eq_some_iff.1 hi
      obtain ⟨t, ht, htj⟩ := Option.bind_eq_some_iff.1 hj
      rw [List.getElem?_map] at hs ht
      obtain ⟨s, hm, rfl⟩ := Option.map_eq_some_iff.1 hs
      obtain ⟨t, hn, rfl⟩ := Option.map_eq_some_iff.1 ht
      obtain rfl := Option.some.inj hsi
      obtain rfl := Option.some.inj htj
      obtain ⟨hm, rfl⟩ := List.getElem?_eq_some_iff.1 hm
      obtain ⟨hn, rfl⟩ := List.getElem?_eq_some_iff.1 hn
      exact List.pairwise_iff_getElem.1 (pairwise_gather (pairwise_sort ts)) m n _ _ hmn
    | cons k a =>
      -- both are below one entry, whose children are nested in turn
      obtain ⟨t, ht, hti⟩ := Option.bind_eq_some_iff.1 hi
      obtain ⟨u, hu, huj⟩ := Option.bind_eq_some_iff.1 hj
      obtain rfl := Option.some.inj (ht.symm.trans hu)
      rw [List.getElem?_map] at ht
      obtain ⟨t, hmem, rfl⟩ := Option.map_eq_some_iff.1 ht
      rw [valueAt?_of_ne_nil (by simp)] at hti huj
      exact ih ⟨t, List.mem_of_getElem? hmem⟩ a hti huj

/-! ## The path of an entry -/

theorem path_of_valueAt?_snoc {base : Path} {ts : Forest Item} (hl : Located base ts) {a : List Nat}
    {n : Nat} {i j : Item} (hi : valueAt? ts a = some i) (hj : valueAt? ts (a ++ [n]) = some j) :
    j.path = i.path ++ [j.key] := by
  induction a generalizing base ts with
  | nil => cases hi
  | cons m a ih =>
    obtain ⟨⟨k, cs⟩, hu, hi⟩ := Option.bind_eq_some_iff.1 hi
    obtain ⟨v, hv, hj⟩ := Option.bind_eq_some_iff.1 hj
    obtain rfl := Option.some.inj (hu.symm.trans hv)
    have hcs := (located_of_getElem? hl hu).2
    rw [valueAt?_of_ne_nil (by simp)] at hj
    by_cases ha : a = []
    · subst ha
      obtain rfl : k = i := Option.some.inj hi
      obtain ⟨⟨l, ds⟩, hw, hj⟩ := Option.bind_eq_some_iff.1 hj
      obtain rfl : l = j := Option.some.inj hj
      exact (located_of_getElem? hcs hw).1
    · rw [valueAt?_of_ne_nil ha] at hi
      exact ih hcs hi hj

/-! ## The outline of symbols -/

theorem sinks_ofSymbols (hidden : List Kind) (symbols : Forest Symbol) :
    ∃ f g, Sinks (visibles hidden symbols) Shows symbols (ofSymbols hidden symbols) f g := by
  obtain ⟨f, g, hvisible⟩ := sinks_visible hidden symbols
  obtain ⟨f', g', hnest⟩ := arranges_sunk.nest (visible hidden symbols)
  have hlocate := Sinks.stay (.stay (valueAt?_locateAll [] (nest (visible hidden symbols))))
  refine ⟨_, _, (hvisible.trans (T := Shows) ?_ ?_ hnest).trans (T := Shows) ?_ ?_ hlocate⟩
  · exact fun s i j hs hij => hij ▸ hs
  · exact fun i j hij => by rw [hij]
  · rintro s i _ hs ⟨p, rfl⟩
    exact ⟨hs.means, hs.name, hs.range, hs.selection⟩
  · rintro i _ ⟨p, rfl⟩
    rfl

/-- An outline as it is laid out. -/
structure LaidOut (o : Outline) : Prop where
  /-- Siblings are in order, and none lies within another. -/
  beside : ∀ a m n, m < n → ∀ i ∈ valueAt? o (a ++ [m]), ∀ j ∈ valueAt? o (a ++ [n]), Beside i j
  /-- The path of an entry at the top is its key. -/
  path_root : ∀ n, ∀ i ∈ valueAt? o [n], i.path = [i.key]
  /-- The path of any other is that of the entry right above it and its key. -/
  path_child : ∀ a n, ∀ i ∈ valueAt? o a, ∀ j ∈ valueAt? o (a ++ [n]), j.path = i.path ++ [j.key]

theorem exists_of_valueAt?_locateAll {base : Path} {ts : Forest Item} {a : List Nat} {j : Item}
    (h : valueAt? (locateAll base ts) a = some j) :
    ∃ i, valueAt? ts a = some i ∧ ∃ p, j = { i with path := p } := by
  have := valueAt?_locateAll base ts a
  rw [h] at this
  generalize valueAt? ts a = i at this
  cases this with
  | some hij => exact ⟨_, rfl, hij⟩

theorem laidOut_ofForest_nest (ts : Forest Item) : LaidOut (ofForest (nest ts)) where
  beside := by
    intro a m n hmn i hi j hj
    -- the spans are those from before the paths were written
    obtain ⟨i, hi', p, rfl⟩ := exists_of_valueAt?_locateAll hi
    obtain ⟨j, hj', q, rfl⟩ := exists_of_valueAt?_locateAll hj
    obtain ⟨hstart, hstop, hcovers, hcovered⟩ := beside_nest ts a hmn hi' hj'
    exact ⟨hstart, hstop, hcovers, hcovered⟩
  path_root := by
    intro n i hi
    obtain ⟨⟨j, cs⟩, hu, hji⟩ := Option.bind_eq_some_iff.1 hi
    obtain rfl : j = i := Option.some.inj hji
    exact (located_of_getElem? (located_ofForest _) hu).1
  path_child := fun a n i hi j hj => path_of_valueAt?_snoc (located_ofForest _) hi hj

/-- A symbol is visible if one below it is. -/
theorem mem_visibles_of_prefix {hidden : List Kind} {symbols : Forest Symbol} {a b : List Nat}
    (hb : b ∈ visibles hidden symbols) (hab : a <+: b) (ha : a ≠ []) :
    a ∈ visibles hidden symbols :=
  ⟨mem_addresses_above hb.1 hab ha, fun c hca => hb.2 c (hca.trans hab)⟩

/-- The outline of symbols is laid out. An entry that does not lie within the one right above it was
right below that one as a symbol; so if every symbol lies within the one right above it, then so does
every entry. -/
theorem laidOut_ofSymbols (hidden : List Kind) (symbols : Forest Symbol) :
    LaidOut (ofSymbols hidden symbols) ∧
    (∃ f : List Nat → List Nat,
      Set.BijOn f (visibles hidden symbols) (addresses (ofSymbols hidden symbols)) ∧
      (∀ a ∈ visibles hidden symbols, ∃ s ∈ valueAt? symbols a,
        ∃ i ∈ valueAt? (ofSymbols hidden symbols) (f a), Shows s i) ∧
      ∀ a ∈ visibles hidden symbols, ∀ b ∈ visibles hidden symbols, ∀ n, f b = f a ++ [n] →
        Inside (ofSymbols hidden symbols) (f b) ∨ ∃ m, b = a ++ [m]) ∧
    ((∀ a n, ∀ s ∈ valueAt? symbols a, ∀ t ∈ valueAt? symbols (a ++ [n]), s.range.Covers t.range) →
      ∀ a n, ∀ i ∈ valueAt? (ofSymbols hidden symbols) a,
        ∀ j ∈ valueAt? (ofSymbols hidden symbols) (a ++ [n]), i.range.Covers j.range) := by
  obtain ⟨f, g, h⟩ := sinks_ofSymbols hidden symbols
  have habove : ∀ a ∈ visibles hidden symbols, ∀ b ∈ visibles hidden symbols, ∀ n,
      f b = f a ++ [n] → Inside (ofSymbols hidden symbols) (f b) ∨ ∃ m, b = a ++ [m] := by
    intro a ha b hb n hfb
    refine or_iff_not_imp_left.2 fun hout => ?_
    have hparent := (h.above b hb).resolve_right hout
    rw [hfb, List.dropLast_concat] at hparent
    obtain ⟨c, m, rfl⟩ : ∃ c m, b = c ++ [m] :=
      ⟨_, _, (List.dropLast_concat_getLast (h.ne_nil b hb)).symm⟩
    rw [List.dropLast_concat] at hparent
    -- the root has no address, so what is above `b` has one
    have hc : c ≠ [] := by
      rintro rfl
      rw [h.top] at hparent
      exact ne_nil_of_mem_addresses (h.mem a ha) hparent.symm
    have hvisible := mem_visibles_of_prefix hb (List.prefix_append c [m]) hc
    have := h.bijOn.injOn hvisible ha hparent
    exact ⟨m, by rw [this]⟩
  refine ⟨laidOut_ofForest_nest _, ⟨f, h.bijOn, h.forth, habove⟩, ?_⟩
  intro hsymbols a n i hi j hj
  have ha := h.back a (mem_addresses.2 ⟨i, hi⟩)
  have hb := h.back _ (mem_addresses.2 ⟨j, hj⟩)
  have hfa := h.right_inv a (mem_addresses.2 ⟨i, hi⟩)
  have hfb := h.right_inv _ (mem_addresses.2 ⟨j, hj⟩)
  rcases habove _ ha _ hb n (by rw [hfb, hfa]) with ⟨i', hi', j', hj', hcovers⟩ | ⟨m, hm⟩
  · rw [hfb, List.dropLast_concat] at hi'
    rw [hfb] at hj'
    obtain rfl := Option.some.inj (hi'.symm.trans hi)
    obtain rfl := Option.some.inj (hj'.symm.trans hj)
    exact hcovers
  · obtain ⟨s, hs, i', hi', hsi⟩ := h.forth _ ha
    obtain ⟨t, ht, j', hj', htj⟩ := h.forth _ hb
    rw [hfa] at hi'
    rw [hfb] at hj'
    obtain rfl := Option.some.inj (hi'.symm.trans hi)
    obtain rfl := Option.some.inj (hj'.symm.trans hj)
    rw [hm] at ht
    rw [hsi.range, htj.range]
    exact hsymbols _ m s hs t ht

end Outline

end SymbolOutline
