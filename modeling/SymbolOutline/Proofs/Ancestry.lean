import Mathlib.Data.List.Induction
import SymbolOutline.Proofs.Insertion
import SymbolOutline.Proofs.Shuffles

/-
Flat symbols come to stand as their spans lie (`nested_ofSymbols`): if spans that both cover a third are
comparable, the entries above an entry are just those of the symbols whose spans cover its own.

That every entry lies within the one above it follows from how entries get there: a symbol reported with
nothing below it goes below another one only if that one covers it. The other half is a matter of layout.
Two entries part at siblings that they are in or below. If one covers the other, both siblings cover the
other; but then they are comparable, and siblings are not (`prefix_iff_covers`).
-/

namespace SymbolOutline

open Rose Forest

namespace Span

theorem Covers.trans {s t u : Span} (h : s.Covers t) (h' : t.Covers u) : s.Covers u :=
  ⟨Position.le_trans h.1 h'.1, Position.le_trans h'.2 h.2⟩

theorem Covers.antisymm {s t : Span} (h : s.Covers t) (h' : t.Covers s) : s = t :=
  eq_of_ends (Position.le_antisymm h.1 h'.1) (Position.le_antisymm h'.2 h.2)

/-- Spans that both cover a third one are comparable. -/
def Chained (spans : List Span) : Prop :=
  ∀ s ∈ spans, ∀ t ∈ spans, ∀ u ∈ spans, s.Covers u → t.Covers u → s.Covers t ∨ t.Covers s

instance (spans : List Span) : Decidable (Chained spans) :=
  inferInstanceAs (Decidable (∀ s ∈ spans, ∀ t ∈ spans, ∀ u ∈ spans, _))

end Span

namespace Outline

/-! ## Above an entry is what covers it -/

/-- Of two addresses one is above the other, or they part at siblings. -/
theorem prefix_or_part (a b : List Nat) :
    a <+: b ∨ b <+: a ∨ ∃ p m n c d, a = p ++ m :: c ∧ b = p ++ n :: d ∧ m ≠ n := by
  induction a generalizing b with
  | nil => exact .inl List.nil_prefix
  | cons m a ih =>
    cases b with
    | nil => exact .inr (.inl List.nil_prefix)
    | cons n b =>
      by_cases hmn : m = n
      · subst hmn
        rcases ih b with h | h | ⟨p, k, l, c, d, rfl, rfl, hkl⟩
        · exact .inl (List.cons_prefix_cons.2 ⟨rfl, h⟩)
        · exact .inr (.inl (List.cons_prefix_cons.2 ⟨rfl, h⟩))
        · exact .inr (.inr ⟨m :: p, k, l, c, d, rfl, rfl, hkl⟩)
      · exact .inr (.inr ⟨[], m, n, a, b, rfl, rfl, hmn⟩)

/-- Every entry lies within the one right above it. -/
def AllInside (o : Outline) : Prop :=
  ∀ a n, ∀ i ∈ valueAt? o a, ∀ j ∈ valueAt? o (a ++ [n]), i.range.Covers j.range

variable {o : Outline} {a b : List Nat} {i j : Item}

theorem AllInside.covers (h : AllInside o) (hab : a <+: b) (hi : valueAt? o a = some i)
    (hj : valueAt? o b = some j) : i.range.Covers j.range := by
  obtain ⟨c, rfl⟩ := hab
  induction c using List.reverseRecOn generalizing j with
  | nil =>
    rw [List.append_nil, hi] at hj
    obtain rfl := Option.some.inj hj
    exact ⟨Position.le_refl _, Position.le_refl _⟩
  | append_singleton c n ih =>
    rw [← List.append_assoc] at hj
    have ha := ne_nil_of_mem_addresses (mem_addresses.2 ⟨i, hi⟩)
    have habove : a ++ c ∈ addresses o :=
      mem_addresses_above (mem_addresses.2 ⟨j, hj⟩) (List.prefix_append ..)
        (List.append_ne_nil_of_left_ne_nil ha c)
    obtain ⟨k, hk⟩ := mem_addresses.1 habove
    exact (ih hk).trans (h _ n k hk j hj)

/-- In an outline that is laid out and whose entries lie within those above them, with different spans
that are comparable where they cover the same, an entry is above another if it covers it. -/
theorem prefix_iff_covers (hlaid : LaidOut o) (hinside : AllInside o)
    (hspans : (o.items.map Item.range).Nodup) (hchained : Span.Chained (o.items.map Item.range))
    (hi : valueAt? o a = some i) (hj : valueAt? o b = some j) : a <+: b ↔ i.range.Covers j.range := by
  refine ⟨fun hab => hinside.covers hab hi hj, fun hij => ?_⟩
  rcases prefix_or_part a b with hab | hba | ⟨p, m, n, c, d, rfl, rfl, hmn⟩
  · exact hab
  · have hji := hinside.covers hba hj hi
    have heq := nodup_map_valuesAll_iff.1 hspans a b i hi j hj (hij.antisymm hji)
    exact heq ▸ List.prefix_refl a
  · -- the siblings at which they part cover the same entry, so one of them covers the other
    have sibling : ∀ {k c' l}, valueAt? o (p ++ k :: c') = some l →
        ∃ x, valueAt? o (p ++ [k]) = some x ∧ x.range.Covers l.range := by
      intro k c' l hl
      have hpre : p ++ [k] <+: p ++ k :: c' := ⟨c', by simp⟩
      obtain ⟨x, hx⟩ := mem_addresses.1
        (mem_addresses_above (mem_addresses.2 ⟨l, hl⟩) hpre (by simp))
      exact ⟨x, hx, hinside.covers hpre hx hl⟩
    have hmem : ∀ {a x}, valueAt? o a = some x → x.range ∈ o.items.map Item.range :=
      fun hx => List.mem_map_of_mem (mem_valuesAll_of_valueAt? hx)
    obtain ⟨x, hx, hxi⟩ := sibling hi
    obtain ⟨y, hy, hyj⟩ := sibling hj
    have hcomparable := hchained _ (hmem hx) _ (hmem hy) _ (hmem hj) (hxi.trans hij) hyj
    have hapart : ¬ x.range.Covers y.range ∧ ¬ y.range.Covers x.range := by
      rcases Nat.lt_or_gt_of_ne hmn with hlt | hgt
      · have := hlaid.beside p m n hlt x hx y hy
        exact ⟨this.not_covers, this.not_covered⟩
      · have := hlaid.beside p n m hgt y hy x hx
        exact ⟨this.not_covered, this.not_covers⟩
    exact absurd hcomparable (not_or.2 hapart)

/-! ## Flat symbols -/

/-- Symbols reported side by side, with nothing below them. -/
def flat (symbols : List Symbol) : Forest Symbol := symbols.map fun s => node s []

variable {hidden : List Kind} {symbols : List Symbol} {f : Nat → List Nat}

theorem valueAt?_flat {s : Symbol} :
    valueAt? (flat symbols) a = some s ↔ ∃ n, a = [n] ∧ symbols[n]? = some s := by
  cases a with
  | nil => exact iff_of_false nofun (by simp)
  | cons n a =>
    rw [Forest.valueAt?, flat, List.getElem?_map]
    cases a with
    | nil => cases hn : symbols[n]? <;> simp [Rose.valueAt?, hn]
    | cons m a => cases symbols[n]? <;> simp [Rose.valueAt?]

theorem mem_visibles_flat (h : ∀ s ∈ symbols, ¬ IsHidden hidden s) :
    a ∈ visibles hidden (flat symbols) ↔ ∃ n < symbols.length, a = [n] := by
  constructor
  · rintro ⟨ha, -⟩
    obtain ⟨s, hs⟩ := mem_addresses.1 ha
    obtain ⟨n, rfl, hn⟩ := valueAt?_flat.1 hs
    exact ⟨n, (List.getElem?_eq_some_iff.1 hn).1, rfl⟩
  · rintro ⟨n, hn, rfl⟩
    refine ⟨mem_addresses.2 ⟨_, valueAt?_flat.2 ⟨n, rfl, List.getElem?_eq_getElem hn⟩⟩, ?_⟩
    intro b _ s hs
    obtain ⟨m, -, hm⟩ := valueAt?_flat.1 hs
    exact h s (List.mem_of_getElem? hm)

/-- Symbols, by number, are those of the entries of an outline, one for one. -/
structure Seats (symbols : List Symbol) (o : Outline) (f : Nat → List Nat) : Prop where
  bijOn : Set.BijOn f {n | n < symbols.length} (addresses o)
  shows : ∀ n, ∀ s ∈ symbols[n]?, ∃ i ∈ valueAt? o (f n), Shows s i

/-- Where no symbol is hidden, each has its entry, and the entries lie within those above them. -/
theorem exists_seats (h : ∀ s ∈ symbols, ¬ IsHidden hidden s) :
    ∃ f, Seats symbols (ofSymbols hidden (flat symbols)) f ∧
      AllInside (ofSymbols hidden (flat symbols)) := by
  obtain ⟨f, g, hsinks⟩ := sinks_ofSymbols hidden (flat symbols)
  have hroots : {n | n < symbols.length}.BijOn (fun n => [n]) (visibles hidden (flat symbols)) := by
    refine ⟨fun n hn => (mem_visibles_flat h).2 ⟨n, hn, rfl⟩, fun m _ n _ hmn => ?_, fun a ha => ?_⟩
    · exact (List.cons.inj hmn).1
    · obtain ⟨n, hn, rfl⟩ := (mem_visibles_flat h).1 ha
      exact ⟨n, hn, rfl⟩
  refine ⟨fun n => f [n], ⟨hsinks.bijOn.comp hroots, fun n s hs => ?_⟩, fun a n i hi j hj => ?_⟩
  · obtain ⟨s', hs', hshows⟩ :=
      hsinks.forth [n] (hroots.mapsTo (List.getElem?_eq_some_iff.1 hs).1)
    obtain ⟨m, hm, hs'⟩ := valueAt?_flat.1 hs'
    obtain rfl := (List.cons.inj hm).1
    obtain rfl := Option.some.inj (hs.symm.trans hs')
    exact hshows
  · -- nothing was right above a symbol, so an entry that is no root came within what is above it
    have hb := mem_addresses.2 ⟨j, hj⟩
    have hfg := hsinks.right_inv _ hb
    obtain ⟨m, -, hm⟩ := (mem_visibles_flat h).1 (hsinks.back _ hb)
    rcases hsinks.above _ (hsinks.back _ hb) with htop | ⟨i', hi', j', hj', hcovers⟩
    · rw [hfg, hm, List.dropLast_singleton, hsinks.top, List.dropLast_concat] at htop
      rw [← htop] at hi
      cases hi
    · rw [hfg, List.dropLast_concat] at hi'
      rw [hfg] at hj'
      obtain rfl := Option.some.inj (hi'.symm.trans hi)
      obtain rfl := Option.some.inj (hj'.symm.trans hj)
      exact hcovers

namespace Seats

variable {m n : Nat} {s t : Symbol}

theorem exists_symbol (h : Seats symbols o f) (hi : valueAt? o b = some i) :
    ∃ n s, symbols[n]? = some s ∧ f n = b ∧ Shows s i := by
  obtain ⟨n, hn, rfl⟩ := h.bijOn.surjOn (mem_addresses.2 ⟨i, hi⟩)
  have hs := List.getElem?_eq_getElem hn
  obtain ⟨i', hi', hshows⟩ := h.shows n _ hs
  obtain rfl := Option.some.inj (hi'.symm.trans hi)
  exact ⟨n, _, hs, rfl, hshows⟩

theorem ne_nil (h : Seats symbols o f) (hs : symbols[n]? = some s) : f n ≠ [] :=
  ne_nil_of_mem_addresses (h.bijOn.mapsTo (List.getElem?_eq_some_iff.1 hs).1)

theorem eq_of_eq (h : Seats symbols o f) (hs : symbols[m]? = some s) (ht : symbols[n]? = some t)
    (hmn : f m = f n) : m = n :=
  h.bijOn.injOn (List.getElem?_eq_some_iff.1 hs).1 (List.getElem?_eq_some_iff.1 ht).1 hmn

/-- An entry is a root, or the one right above it is that of another symbol. -/
theorem above (h : Seats symbols o f) (ht : symbols[n]? = some t) :
    ∃ p k, f n = p ++ [k] ∧ (p = [] ∨ ∃ l u, symbols[l]? = some u ∧ l ≠ n ∧ f l = p) := by
  refine ⟨_, _, (List.dropLast_concat_getLast (h.ne_nil ht)).symm, or_iff_not_imp_left.2 fun hp => ?_⟩
  have hn := h.bijOn.mapsTo (List.getElem?_eq_some_iff.1 ht).1
  obtain ⟨i, hi⟩ := mem_addresses.1 (mem_addresses_above hn (List.dropLast_prefix _) hp)
  obtain ⟨l, u, hu, hl, -⟩ := h.exists_symbol hi
  refine ⟨l, u, hu, ?_, hl⟩
  rintro rfl
  have := congrArg List.length hl
  rw [List.length_dropLast] at this
  have := List.length_pos_iff.2 (h.ne_nil ht)
  omega

end Seats

/-- The entries of symbols stand as their spans lie. -/
structure Nested (symbols : List Symbol) (f : Nat → List Nat) : Prop where
  /-- One is above another just if its span covers the other's. -/
  ancestor : ∀ m n, ∀ s ∈ symbols[m]?, ∀ t ∈ symbols[n]?, f m <+: f n ↔ s.range.Covers t.range
  /-- The one right above it is the smallest of all others that cover it. -/
  parent : ∀ m n, ∀ s ∈ symbols[m]?, ∀ t ∈ symbols[n]?, (∃ k, f n = f m ++ [k]) ↔
    m ≠ n ∧ s.range.Covers t.range ∧
      ∀ l, l ≠ n → ∀ u ∈ symbols[l]?, u.range.Covers t.range → u.range.Covers s.range
  /-- The roots are those that no other covers. -/
  root : ∀ n, ∀ t ∈ symbols[n]?, (∃ k, f n = [k]) ↔
    ∀ l, l ≠ n → ∀ u ∈ symbols[l]?, ¬ u.range.Covers t.range

/-- What is right above an entry, and whether anything is, follows from what is above it. -/
theorem Seats.nested (h : Seats symbols o f)
    (hancestor : ∀ m n, ∀ s ∈ symbols[m]?, ∀ t ∈ symbols[n]?, f m <+: f n ↔ s.range.Covers t.range) :
    Nested symbols f where
  ancestor := hancestor
  parent := by
    intro m n s hs t ht
    constructor
    · rintro ⟨k, hk⟩
      refine ⟨?_, (hancestor m n s hs t ht).1 ⟨[k], hk.symm⟩, fun l hl u hu hut => ?_⟩
      · rintro rfl
        simp at hk
      · have hln := (hancestor l n u hu t ht).2 hut
        rw [hk, List.prefix_concat_iff, ← hk] at hln
        rcases hln with hln | hlm
        · exact absurd (h.eq_of_eq hu ht hln) hl
        · exact (hancestor l m u hu s hs).1 hlm
    · rintro ⟨hmn, hst, hleast⟩
      obtain ⟨p, k, hp, habove⟩ := h.above ht
      have hmp := (hancestor m n s hs t ht).2 hst
      rw [hp, List.prefix_concat_iff, ← hp] at hmp
      replace hmp := hmp.resolve_left fun heq => hmn (h.eq_of_eq hs ht heq)
      -- what is right above is not the place of the roots, so it is covered by the smallest
      obtain ⟨l, u, hu, hl, rfl⟩ := habove.resolve_left fun hnil =>
        h.ne_nil hs (List.prefix_nil.1 (hnil ▸ hmp))
      have hut := (hancestor l n u hu t ht).1 ⟨[k], hp.symm⟩
      have hlm := (hancestor l m u hu s hs).2 (hleast l hl u hu hut)
      exact ⟨k, by rw [hp, hlm.eq_of_length (Nat.le_antisymm hlm.length_le hmp.length_le)]⟩
  root := by
    intro n t ht
    constructor
    · rintro ⟨k, hk⟩ l hl u hu hut
      have hln := (hancestor l n u hu t ht).2 hut
      rw [hk] at hln
      rcases List.prefix_cons_iff.1 hln with hnil | ⟨c, hc, hpre⟩
      · exact h.ne_nil hu hnil
      · obtain rfl := List.prefix_nil.1 hpre
        exact hl (h.eq_of_eq hu ht (hc.trans hk.symm))
    · intro hnone
      obtain ⟨p, k, hp, rfl | ⟨l, u, hu, hl, rfl⟩⟩ := h.above ht
      · exact ⟨k, hp⟩
      · exact absurd ((hancestor l n u hu t ht).1 ⟨[k], hp.symm⟩) (hnone l hl u hu)

/-- Flat symbols that are not hidden have entries, one for one, that stand as the spans lie, if the spans
differ and those that cover the same one are comparable. -/
theorem nested_ofSymbols (hvisible : ∀ s ∈ symbols, ¬ IsHidden hidden s)
    (hspans : (symbols.map Symbol.range).Nodup) (hchained : Span.Chained (symbols.map Symbol.range)) :
    ∃ f, Seats symbols (ofSymbols hidden (flat symbols)) f ∧ Nested symbols f := by
  obtain ⟨f, hseats, hinside⟩ := exists_seats hvisible
  have hmem : ∀ r ∈ (ofSymbols hidden (flat symbols)).items.map Item.range,
      r ∈ symbols.map Symbol.range := by
    intro r hr
    obtain ⟨i, hi, rfl⟩ := List.mem_map.1 hr
    obtain ⟨a, ha⟩ := exists_valueAt? hi
    obtain ⟨n, s, hs, -, hshows⟩ := hseats.exists_symbol ha
    exact hshows.range ▸ List.mem_map_of_mem (List.mem_of_getElem? hs)
  have hdiffer : ((ofSymbols hidden (flat symbols)).items.map Item.range).Nodup := by
    refine nodup_map_valuesAll_iff.2 fun a b i hi j hj hij => ?_
    obtain ⟨m, s, hs, rfl, hsi⟩ := hseats.exists_symbol hi
    obtain ⟨n, t, ht, rfl, htj⟩ := hseats.exists_symbol hj
    rw [hsi.range, htj.range] at hij
    have hm : m < (symbols.map Symbol.range).length := by
      rw [List.length_map]
      exact (List.getElem?_eq_some_iff.1 hs).1
    have hsame : (symbols.map Symbol.range)[m]? = (symbols.map Symbol.range)[n]? := by
      rw [List.getElem?_map, List.getElem?_map, hs, ht, Option.map_some, Option.map_some, hij]
    rw [(List.getElem?_inj hm hspans).1 hsame]
  refine ⟨f, hseats, hseats.nested fun m n s hs t ht => ?_⟩
  obtain ⟨i, hi, hsi⟩ := hseats.shows m s hs
  obtain ⟨j, hj, htj⟩ := hseats.shows n t ht
  rw [← hsi.range, ← htj.range]
  refine prefix_iff_covers (laidOut_ofForest_nest _) hinside hdiffer ?_ hi hj
  exact fun s hs t ht u hu => hchained s (hmem s hs) t (hmem t ht) u (hmem u hu)

/-- Spans that share an end, and one that overlaps another and lies in none. -/
theorem nested_ofSymbols_overlapping :
    let symbol (name : String) (first last : Nat) : Symbol :=
      ⟨⟨.function, name⟩, none, .ofLines first last, .ofLines first first⟩
    let symbols := [symbol "c" 4 5, symbol "d" 8 12, symbol "b" 4 6, symbol "a" 0 9, symbol "e" 2 4]
    let o := ofSymbols [.tag] (flat symbols)
    ((∀ s ∈ symbols, ¬ IsHidden [.tag] s) ∧ (symbols.map Symbol.range).Nodup ∧
      Span.Chained (symbols.map Symbol.range)) ∧
      o.items.map (fun i => (i.key.name, i.path.length)) =
        [("a", 1), ("e", 2), ("b", 2), ("c", 3), ("d", 1)] ∧
      ∃ f, Seats symbols o f ∧ Nested symbols f := by
  intro symbol symbols o
  have hkinds : ∀ s ∈ symbols, s.unmask.1 ∉ [Kind.tag] := by decide
  have hvisible : ∀ s ∈ symbols, ¬ IsHidden [.tag] s := fun s hs h => hkinds s hs (isHidden_iff.1 h)
  have hspans : (symbols.map Symbol.range).Nodup := by decide
  have hchained : Span.Chained (symbols.map Symbol.range) := by decide
  have hdepths : o.items.map (fun i => (i.key.name, i.path.length)) =
      [("a", 1), ("e", 2), ("b", 2), ("c", 3), ("d", 1)] := by
    subst o symbols symbol
    rw [ofSymbols_eq_inserted]
    decide +kernel
  exact ⟨⟨hvisible, hspans, hchained⟩, hdepths, nested_ofSymbols hvisible hspans hchained⟩

end Outline

end SymbolOutline
