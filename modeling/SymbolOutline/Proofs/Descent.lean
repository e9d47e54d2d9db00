import SymbolOutline.Proofs.Carries

/-
Symbols that are not hidden and their entries, one for one (`bijOn_ofSymbols`). Every symbol stands
for one kind and one detail, and is not hidden if neither its kind nor that of a symbol above it is.
-/

namespace SymbolOutline

open Rose Forest

/-! ## What symbols stand for -/

namespace Symbol

/-- The kind and the detail that a symbol stands for. -/
inductive Means (s : Symbol) : Kind → String → Prop
  /-- A number whose detail begins with the marker of regions. -/
  | region {rest : String} : s.key.kind = .number → s.detail = some (regionMarker ++ rest) →
      Means s .region rest
  /-- A number whose detail begins with the marker of tags. -/
  | tag {rest : String} : s.key.kind = .number → s.detail = some (tagMarker ++ rest) →
      Means s .tag rest
  /-- Any other symbol is what it says. A missing detail is empty. -/
  | plain : (s.key.kind = .number → ∀ rest, s.detail ≠ some (regionMarker ++ rest) ∧
      s.detail ≠ some (tagMarker ++ rest)) → Means s s.key.kind (s.detail.getD "")

theorem after?_eq_some {marker text rest : String} :
    after? marker text = some rest ↔ text = marker ++ rest := by
  have hdrop : ∀ r : List Char, (marker.toList ++ r).drop marker.length = r := fun r => by
    rw [← String.length_toList, List.drop_left]
  unfold after?
  constructor
  · intro h
    obtain ⟨hpre, hrest⟩ := Option.ite_none_right_eq_some.1 h
    obtain ⟨r, hr⟩ := List.isPrefixOf_iff_prefix.1 hpre
    apply String.toList_injective
    rw [← hr, hdrop] at hrest
    rw [← hr, String.toList_append, ← Option.some.inj hrest, String.toList_ofList]
  · rintro rfl
    simp [hdrop]

/-- Texts that begin with different markers differ. -/
theorem regionMarker_append_ne (rest rest' : String) :
    regionMarker ++ rest ≠ tagMarker ++ rest' := by
  intro h
  have := congrArg (fun t => t.toList[10]?) h
  revert this
  simp [regionMarker, tagMarker]

theorem getD_eq_append {detail : Option String} {marker rest : String} (hm : marker ≠ "") :
    detail.getD "" = marker ++ rest ↔ detail = some (marker ++ rest) := by
  cases detail with
  | none =>
    refine iff_of_false (fun h => hm ?_) (by simp)
    exact (String.append_eq_empty_iff.1 h.symm).1
  | some d => simp

theorem after?_eq_none {marker : String} {detail : Option String} (hm : marker ≠ "") :
    after? marker (detail.getD "") = none ↔ ∀ rest, detail ≠ some (marker ++ rest) := by
  rw [Option.eq_none_iff_forall_ne_some]
  exact forall_congr' fun rest => not_congr (after?_eq_some.trans (getD_eq_append hm))

theorem means_unmask (s : Symbol) : s.Means s.unmask.1 s.unmask.2 := by
  have hr : regionMarker ≠ "" := by decide
  have ht : tagMarker ≠ "" := by decide
  unfold unmask
  by_cases hk : s.key.kind = .number
  · simp only [if_pos hk]
    cases hregion : after? regionMarker (s.detail.getD "") with
    | some rest => exact .region hk ((getD_eq_append hr).1 (after?_eq_some.1 hregion))
    | none =>
      cases htag : after? tagMarker (s.detail.getD "") with
      | some rest => exact .tag hk ((getD_eq_append ht).1 (after?_eq_some.1 htag))
      | none =>
        have := Means.plain (s := s) fun _ rest =>
          ⟨(after?_eq_none hr).1 hregion rest, (after?_eq_none ht).1 htag rest⟩
        rwa [hk] at this
  · simp only [if_neg hk]
    exact .plain fun h => absurd h hk

/-- A symbol stands for one kind and one detail. -/
theorem means_iff {s : Symbol} {kind : Kind} {detail : String} :
    s.Means kind detail ↔ s.unmask = (kind, detail) := by
  have hr : regionMarker ≠ "" := by decide
  have ht : tagMarker ≠ "" := by decide
  constructor
  · intro h
    cases h with
    | region hk hd =>
      have hregion := after?_eq_some.2 ((getD_eq_append hr).2 hd)
      simp [unmask, hk, hregion]
    | tag hk hd =>
      have hregion : after? regionMarker (s.detail.getD "") = none :=
        (after?_eq_none hr).2 fun r h => regionMarker_append_ne r detail (by simpa [hd] using h.symm)
      have htag := after?_eq_some.2 ((getD_eq_append ht).2 hd)
      simp [unmask, hk, hregion, htag]
    | plain h =>
      by_cases hk : s.key.kind = .number
      · have hregion := (after?_eq_none hr).2 fun rest => (h hk rest).1
        have htag := (after?_eq_none ht).2 fun rest => (h hk rest).2
        simp [unmask, hk, hregion, htag]
      · simp [unmask, hk]
  · intro h
    have := means_unmask s
    rwa [h] at this

end Symbol

namespace Outline

/-! ## Symbols that are not hidden -/

/-- A symbol has a kind that is hidden. -/
def IsHidden (hidden : List Kind) (s : Symbol) : Prop :=
  ∃ kind detail, s.Means kind detail ∧ kind ∈ hidden

/-- The addresses of the symbols that are not hidden and are below no hidden ones. -/
def visibles (hidden : List Kind) (ts : Forest Symbol) : Set (List Nat) :=
  {a | a ∈ addresses ts ∧ ∀ b, b <+: a → ∀ s ∈ valueAt? ts b, ¬ IsHidden hidden s}

/-- An entry is that of a symbol. -/
structure Shows (s : Symbol) (i : Item) : Prop where
  means : s.Means i.key.kind i.detail
  name : i.key.name = s.key.name
  range : i.range = s.range
  selection : i.selection = s.selection

theorem isHidden_iff {hidden : List Kind} {s : Symbol} : IsHidden hidden s ↔ s.unmask.1 ∈ hidden := by
  constructor
  · rintro ⟨kind, detail, hmeans, hmem⟩
    rwa [Symbol.means_iff.1 hmeans]
  · exact fun h => ⟨_, _, Symbol.means_unmask s, h⟩

variable {hidden : List Kind} {s : Symbol} {cs ts : Forest Symbol}

theorem visibles_nil : visibles hidden [] = ∅ := by
  ext a
  simp [visibles, addresses_nil]

theorem root_mem_visibles : [0] ∈ visibles hidden (node s cs :: ts) ↔ ¬ IsHidden hidden s := by
  constructor
  · exact fun h => h.2 [0] (List.prefix_refl _) s rfl
  · refine fun h => ⟨rfl, fun b hb r hr => ?_⟩
    rcases List.prefix_cons_iff.1 hb with rfl | ⟨b, rfl, hb'⟩
    · cases hr
    · obtain rfl := List.prefix_nil.1 hb'
      obtain rfl : s = r := Option.some.inj hr
      exact h

theorem zero_mem_visibles {a : List Nat} (ha : a ≠ []) :
    0 :: a ∈ visibles hidden (node s cs :: ts) ↔ ¬ IsHidden hidden s ∧ a ∈ visibles hidden cs := by
  have haddress := mem_addresses_congr (valueAt?_zero ha s cs ts)
  constructor
  · rintro ⟨hmem, h⟩
    refine ⟨h [0] ⟨a, rfl⟩ s rfl, haddress.1 hmem, fun b hb r hr => ?_⟩
    have hne : b ≠ [] := by
      rintro rfl
      cases hr
    exact h (0 :: b) (List.cons_prefix_cons.2 ⟨rfl, hb⟩) r (by rwa [valueAt?_zero hne])
  · rintro ⟨hs, hmem, h⟩
    refine ⟨haddress.2 hmem, fun b hb r hr => ?_⟩
    rcases List.prefix_cons_iff.1 hb with rfl | ⟨b, rfl, hb'⟩
    · cases hr
    · by_cases hne : b = []
      · subst hne
        obtain rfl : s = r := Option.some.inj hr
        exact hs
      · rw [valueAt?_zero hne] at hr
        exact h b hb' r hr

theorem shift_mem_visibles {a : List Nat} (ha : a ≠ []) :
    shift a ∈ visibles hidden (node s cs :: ts) ↔ a ∈ visibles hidden ts := by
  have haddress := mem_addresses_congr (valueAt?_shift (node s cs) ts a)
  constructor
  · rintro ⟨hmem, h⟩
    refine ⟨haddress.1 hmem, fun b hb r hr => ?_⟩
    exact h (shift b) ((shift_prefix_shift ha).2 hb) r (by rwa [valueAt?_shift])
  · rintro ⟨hmem, h⟩
    refine ⟨haddress.2 hmem, fun b hb r hr => ?_⟩
    match b, hb, hr with
    | 0 :: b, hb, _ => exact absurd hb not_zero_prefix_shift
    | (n + 1) :: b, hb, hr => exact h (n :: b) ((shift_prefix_shift (a := n :: b) ha).1 hb) r hr

/-- What is below a hidden symbol goes with it. -/
theorem visibles_cons (s : Symbol) (cs ts : Forest Symbol) :
    visibles hidden (node s cs :: ts) =
      if s.unmask.1 ∈ hidden then shift '' visibles hidden ts
      else consAddresses (visibles hidden cs) (visibles hidden ts) := by
  ext a
  split
  · next hs =>
    have hs := isHidden_iff.2 hs
    constructor
    · intro h
      match a, h with
      | [], h => exact absurd rfl (ne_nil_of_mem_addresses h.1)
      | [0], h => exact absurd hs (root_mem_visibles.1 h)
      | 0 :: n :: a, h => exact absurd hs ((zero_mem_visibles (List.cons_ne_nil _ _)).1 h).1
      | (n + 1) :: a, h =>
        exact ⟨n :: a, (shift_mem_visibles (List.cons_ne_nil _ _)).1 h, rfl⟩
    · rintro ⟨a, ha, rfl⟩
      exact (shift_mem_visibles (ne_nil_of_mem_addresses ha.1)).2 ha
  · next hs =>
    have hs := fun h => hs (isHidden_iff.1 h)
    constructor
    · intro h
      match a, h with
      | [], h => exact absurd rfl (ne_nil_of_mem_addresses h.1)
      | [0], h => exact .inl rfl
      | 0 :: n :: a, h =>
        exact .inr (.inl ⟨n :: a, ((zero_mem_visibles (List.cons_ne_nil _ _)).1 h).2, rfl⟩)
      | (n + 1) :: a, h =>
        exact .inr (.inr ⟨n :: a, (shift_mem_visibles (List.cons_ne_nil _ _)).1 h, rfl⟩)
    · rintro (rfl | ⟨a, ha, rfl⟩ | ⟨a, ha, rfl⟩)
      · exact root_mem_visibles.2 hs
      · exact (zero_mem_visibles (ne_nil_of_mem_addresses ha.1)).2 ⟨hs, ha⟩
      · exact (shift_mem_visibles (ne_nil_of_mem_addresses ha.1)).2 ha

theorem sinks_visible (hidden : List Kind) (ts : Forest Symbol) :
    ∃ f g, Sinks (visibles hidden ts) Shows ts (visible hidden ts) f g := by
  induction ts using induct_forest with
  | nil =>
    rw [visibles_nil]
    exact ⟨id, id, .nil⟩
  | cons s cs ts ihc ih =>
    obtain ⟨f, g, h⟩ := ihc
    obtain ⟨f', g', h'⟩ := ih
    rw [visible, ofSymbol, visibles_cons]
    simp only
    by_cases hs : s.unmask.1 ∈ hidden
    · rw [if_pos hs, if_pos hs]
      exact ⟨_, _, h'.skip _⟩
    · have hshows : Shows s (Item.fresh ⟨s.unmask.1, s.key.name⟩ s.unmask.2 s.range s.selection) :=
        ⟨s.means_unmask, rfl, rfl, rfl⟩
      rw [if_neg hs, if_neg hs]
      exact ⟨_, _, h.cons hshows h'⟩

theorem carried_visible (hidden : List Kind) (ts : Forest Symbol) :
    Carried (visibles hidden ts) Shows ts (visible hidden ts) := by
  obtain ⟨f, g, h⟩ := sinks_visible hidden ts
  exact ⟨f, g, h.toCarries⟩

/-! ## Items rearranged -/

theorem deepens_nest (ts : Forest Item) : Carried (addresses ts) Eq ts (nest ts) := by
  obtain ⟨f, g, h⟩ := arranges_sunk.nest ts
  exact ⟨f, g, h.toCarries⟩

theorem valueAt?_locateAll (base : Path) (ts : Forest Item) (a : List Nat) :
    Option.Rel (fun i j => ∃ p, j = { i with path := p }) (valueAt? ts a)
      (valueAt? (locateAll base ts) a) := by
  induction ts using induct_forest generalizing base a with
  | nil => cases a <;> exact .none
  | cons i cs ts ihc ih =>
    rw [locateAll_cons]
    match a with
    | [] => exact .none
    | [0] => exact .some ⟨_, rfl⟩
    | 0 :: n :: a => exact ihc _ (n :: a)
    | (n + 1) :: a => exact ih base (n :: a)

theorem carried_locateAll (base : Path) (ts : Forest Item) :
    Carried (addresses ts) (fun i j => ∃ p, j = { i with path := p }) ts (locateAll base ts) :=
  ⟨_, _, .stay (valueAt?_locateAll base ts)⟩

/-- The symbols that are not hidden are those of the entries, one for one, and a symbol below another
is below it as an entry, too. -/
theorem bijOn_ofSymbols (hidden : List Kind) (symbols : Forest Symbol) :
    ∃ f : List Nat → List Nat,
      Set.BijOn f (visibles hidden symbols) (addresses (ofSymbols hidden symbols)) ∧
      (∀ a ∈ visibles hidden symbols, ∃ s ∈ valueAt? symbols a,
        ∃ i ∈ valueAt? (ofSymbols hidden symbols) (f a), Shows s i) ∧
      ∀ a ∈ visibles hidden symbols, ∀ b ∈ visibles hidden symbols, a <+: b → f a <+: f b := by
  have hnest := (carried_visible hidden symbols).trans (T := Shows)
    (fun s i j hs (hj : i = j) => hj ▸ hs) (deepens_nest _)
  obtain ⟨f, g, h⟩ := hnest.trans (T := Shows)
    (fun s i j hs (hj : ∃ p, j = { i with path := p }) => by
      obtain ⟨p, rfl⟩ := hj
      exact ⟨hs.means, hs.name, hs.range, hs.selection⟩) (carried_locateAll [] _)
  exact ⟨f, h.bijOn, h.forth, h.mono⟩

end Outline

end SymbolOutline
