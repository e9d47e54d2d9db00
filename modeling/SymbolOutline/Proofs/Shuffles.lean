import Mathlib.Data.List.Nodup
import Mathlib.Data.List.Perm.Basic
import SymbolOutline.Proofs.Layout

/-
The outline of symbols does not depend on the order in which they come (`ofSymbols_eq_of_shuffled`).

Children of an entry come in the order of the symbols and then in that in which the entry took them in, so
on the way to an outline forests are only the same up to the order of siblings (`Shuffled`). Where no two
spans are the same, siblings that are put in order are the same one by one, but for what is below them
(`forall₂_sort`), and one takes in what the other takes in (`Alike.forall₂_gather`). What is below them is
put in order next.
-/

namespace SymbolOutline

open Rose Forest

namespace Forest

variable {α β : Type}

/-! ## Siblings in another order -/

/-- Forests that differ in the order of siblings only, at any levels. -/
inductive Shuffled : Forest α → Forest α → Prop
  | nil : Shuffled [] []
  | cons (a : α) {cs ds ss ts : Forest α} : Shuffled cs ds → Shuffled ss ts →
      Shuffled (node a cs :: ss) (node a ds :: ts)
  | swap (s t : Rose α) (ts : Forest α) : Shuffled (s :: t :: ts) (t :: s :: ts)
  | trans {ss ts us : Forest α} : Shuffled ss ts → Shuffled ts us → Shuffled ss us

/-- Trees that differ in the order of siblings below the top. -/
def Alike (s t : Rose α) : Prop := s.value = t.value ∧ Shuffled s.children t.children

namespace Shuffled

variable {ss ts us vs : Forest α}

theorem refl (ts : Forest α) : Shuffled ts ts := by
  induction ts using induct_forest with
  | nil => exact .nil
  | cons a cs ts ihc ih => exact .cons a ihc ih

theorem cons_tree (t : Rose α) (h : Shuffled ss ts) : Shuffled (t :: ss) (t :: ts) := by
  obtain ⟨a, cs⟩ := t
  exact .cons a (.refl cs) h

theorem of_perm (h : ss.Perm ts) : Shuffled ss ts := by
  induction h with
  | nil => exact .nil
  | cons t _ ih => exact ih.cons_tree t
  | swap s t ts => exact .swap t s ts
  | trans _ _ ih ih' => exact .trans ih ih'

theorem append_left (ts : Forest α) (h : Shuffled us vs) : Shuffled (ts ++ us) (ts ++ vs) := by
  induction ts with
  | nil => exact h
  | cons t ts ih => exact ih.cons_tree t

theorem append_right (us : Forest α) (h : Shuffled ss ts) : Shuffled (ss ++ us) (ts ++ us) := by
  induction h with
  | nil => exact .refl us
  | cons a hc _ _ ih => exact .cons a hc ih
  | swap s t ts => exact .swap s t (ts ++ us)
  | trans _ _ ih ih' => exact .trans ih ih'

theorem append (h : Shuffled ss ts) (h' : Shuffled us vs) : Shuffled (ss ++ us) (ts ++ vs) :=
  .trans (h.append_right us) (h'.append_left ts)

theorem of_forall₂ (h : List.Forall₂ Alike ss ts) : Shuffled ss ts := by
  induction h with
  | nil => exact .nil
  | @cons s t _ _ hst _ ih =>
    obtain ⟨a, cs⟩ := s
    obtain ⟨b, ds⟩ := t
    obtain ⟨rfl, hbelow⟩ := hst
    exact .cons a hbelow ih

theorem forall₂_trans (h : List.Forall₂ Alike ss ts) (h' : List.Forall₂ Alike ts us) :
    List.Forall₂ Alike ss us := by
  induction h generalizing us with
  | nil => exact h'
  | cons hst _ ih =>
    obtain ⟨u, us, htu, htus, rfl⟩ := List.forall₂_cons_left_iff.1 h'
    exact .cons ⟨hst.1.trans htu.1, .trans hst.2 htu.2⟩ (ih htus)

theorem map_value_eq (h : List.Forall₂ Alike ss ts) : ss.map Rose.value = ts.map Rose.value := by
  induction h with
  | nil => rfl
  | cons hst _ ih => rw [List.map_cons, List.map_cons, hst.1, ih]

/-- The siblings at the top in another order are those of the other forest, one by one. -/
theorem exists_perm (h : Shuffled ss ts) : ∃ us, ss.Perm us ∧ List.Forall₂ Alike us ts := by
  induction h with
  | nil => exact ⟨[], .nil, .nil⟩
  | cons a hc _ _ ih =>
    obtain ⟨us, hperm, halike⟩ := ih
    exact ⟨_ :: us, hperm.cons _, .cons ⟨rfl, hc⟩ halike⟩
  | swap s t ts => exact ⟨_, .swap t s ts, List.forall₂_same.2 fun u _ => ⟨rfl, .refl _⟩⟩
  | trans _ _ ih ih' =>
    obtain ⟨us, hperm, halike⟩ := ih
    obtain ⟨vs, hperm', halike'⟩ := ih'
    -- the second rearrangement is carried out before the first comparison
    obtain ⟨ws, hws, hws'⟩ : Relation.Comp List.Perm (List.Forall₂ Alike) us vs :=
      List.forall₂_comp_perm_eq_perm_comp_forall₂ (r := Alike) ▸ ⟨_, halike, hperm'⟩
    exact ⟨ws, hperm.trans hws, forall₂_trans hws' halike'⟩

end Shuffled

/-! ## Values that differ -/

theorem valuesAll_children_sublist {t : Rose α} {ts : Forest α} (h : t ∈ ts) :
    (valuesAll t.children).Sublist (valuesAll ts) := by
  obtain ⟨pre, post, rfl⟩ := List.append_of_mem h
  obtain ⟨a, cs⟩ := t
  rw [valuesAll_append, valuesAll_cons]
  exact .trans (.trans (List.sublist_append_left ..) (List.sublist_cons_self ..))
    (List.sublist_append_right ..)

theorem map_value_sublist (ts : Forest α) : (ts.map Rose.value).Sublist (valuesAll ts) := by
  induction ts with
  | nil => exact .slnil
  | cons t ts ih =>
    obtain ⟨a, cs⟩ := t
    exact List.Sublist.cons_cons a (ih.trans (List.sublist_append_right ..))

/-- A function tells the values of a forest apart just if it tells any two addresses apart. -/
theorem nodup_map_valuesAll_iff {f : α → β} {ts : Forest α} : ((valuesAll ts).map f).Nodup ↔
    ∀ a b, ∀ x ∈ valueAt? ts a, ∀ y ∈ valueAt? ts b, f x = f y → a = b := by
  induction ts using induct_forest with
  | nil => exact iff_of_true .nil fun a _ x hx => by cases a <;> cases hx
  | cons z cs ts ihc ih =>
    have hmem : ∀ {us : Forest α} {b y}, valueAt? us b = some y → f y ∈ (valuesAll us).map f :=
      fun hy => List.mem_map_of_mem (mem_valuesAll_of_valueAt? hy)
    rw [valuesAll_cons, List.map_cons, List.map_append, List.nodup_cons, List.mem_append, not_or,
      List.nodup_append, ihc, ih]
    constructor
    · rintro ⟨⟨hcs, hts⟩, hc, ht, hct⟩ a b x hx y hy hxy
      rcases valueAt?_cons_cases hx with ⟨rfl, rfl⟩ | ⟨a, rfl, ha⟩ | ⟨a, rfl, ha⟩ <;>
        rcases valueAt?_cons_cases hy with ⟨rfl, rfl⟩ | ⟨b, rfl, hb⟩ | ⟨b, rfl, hb⟩
      · rfl
      · exact absurd (hxy ▸ hmem hb) hcs
      · exact absurd (hxy ▸ hmem hb) hts
      · exact absurd (hxy ▸ hmem ha) hcs
      · exact congrArg _ (hc a b x ha y hb hxy)
      · exact absurd hxy (hct _ (hmem ha) _ (hmem hb))
      · exact absurd (hxy ▸ hmem ha) hts
      · exact absurd hxy.symm (hct _ (hmem hb) _ (hmem ha))
      · exact congrArg shift (ht a b x ha y hb hxy)
    · intro h
      have below : ∀ {b y}, valueAt? cs b = some y →
          b ≠ [] ∧ valueAt? (node z cs :: ts) (0 :: b) = some y := fun {b y} hy =>
        have hb := ne_nil_of_mem_addresses (mem_addresses.2 ⟨y, hy⟩)
        ⟨hb, (valueAt?_zero hb z cs ts).trans hy⟩
      have beside : ∀ {b y}, valueAt? ts b = some y →
          b ≠ [] ∧ valueAt? (node z cs :: ts) (shift b) = some y := fun {b y} hy =>
        ⟨ne_nil_of_mem_addresses (mem_addresses.2 ⟨y, hy⟩), (valueAt?_shift _ ts b).trans hy⟩
      refine ⟨⟨?_, ?_⟩, fun a b x hx y hy hxy => ?_, fun a b x hx y hy hxy => ?_, ?_⟩
      · intro hz
        obtain ⟨y, hy, hyz⟩ := List.mem_map.1 hz
        obtain ⟨b, hb⟩ := exists_valueAt? hy
        have := h [0] (0 :: b) z rfl y (below hb).2 hyz.symm
        exact (below hb).1 (List.cons.inj this).2.symm
      · intro hz
        obtain ⟨y, hy, hyz⟩ := List.mem_map.1 hz
        obtain ⟨b, hb⟩ := exists_valueAt? hy
        exact absurd (h [0] (shift b) z rfl y (beside hb).2 hyz.symm) zero_ne_shift
      · exact (List.cons.inj (h _ _ x (below hx).2 y (below hy).2 hxy)).2
      · exact shift_injective (h _ _ x (beside hx).2 y (beside hy).2 hxy)
      · rintro _ hx _ hy rfl
        obtain ⟨x, hx, hfx⟩ := List.mem_map.1 hx
        obtain ⟨y, hy, hfy⟩ := List.mem_map.1 hy
        obtain ⟨a, ha⟩ := exists_valueAt? hx
        obtain ⟨b, hb⟩ := exists_valueAt? hy
        exact absurd (h _ _ x (below ha).2 y (beside hb).2 (hfx.trans hfy.symm)) zero_ne_shift

end Forest

theorem Span.eq_of_ends {s t : Span} (hstart : s.start = t.start) (hstop : s.stop = t.stop) : s = t := by
  cases s
  cases t
  simp_all

namespace Outline

/-! ## Symbols in another order -/

theorem shuffled_visible {ss ts : Forest Symbol} (hidden : List Kind) (h : Shuffled ss ts) :
    Shuffled (visible hidden ss) (visible hidden ts) := by
  induction h with
  | nil => exact .nil
  | cons s _ _ ihc ih =>
    rw [visible, visible]
    refine .append ?_ ih
    rw [ofSymbol, ofSymbol]
    simp only
    split
    · exact .nil
    · exact .cons _ ihc .nil
  | swap s t ts =>
    simp only [visible]
    exact .of_perm (List.perm_append_comm_assoc ..)
  | trans _ _ ih ih' => exact .trans ih ih'

/-- No two symbols that are not hidden, at whatever levels, have the same span. -/
def SpansDiffer (hidden : List Kind) (symbols : Forest Symbol) : Prop :=
  ∀ a ∈ visibles hidden symbols, ∀ b ∈ visibles hidden symbols,
    ∀ s ∈ valueAt? symbols a, ∀ t ∈ valueAt? symbols b, s.range = t.range → a = b

/-- The entries have the spans of the symbols. -/
theorem spansDiffer_iff {hidden : List Kind} {symbols : Forest Symbol} :
    SpansDiffer hidden symbols ↔ ((valuesAll (visible hidden symbols)).map Item.range).Nodup := by
  obtain ⟨f, g, h⟩ := carried_visible hidden symbols
  rw [nodup_map_valuesAll_iff]
  constructor
  · intro hspans a b i hi j hj hij
    have ha := mem_addresses.2 ⟨i, hi⟩
    have hb := mem_addresses.2 ⟨j, hj⟩
    obtain ⟨s, hs, i', hi', hsi⟩ := h.forth _ (h.back a ha)
    obtain ⟨t, ht, j', hj', htj⟩ := h.forth _ (h.back b hb)
    rw [h.right_inv a ha] at hi'
    rw [h.right_inv b hb] at hj'
    obtain rfl := Option.some.inj (hi'.symm.trans hi)
    obtain rfl := Option.some.inj (hj'.symm.trans hj)
    rw [hsi.range, htj.range] at hij
    rw [← h.right_inv a ha, hspans _ (h.back a ha) _ (h.back b hb) s hs t ht hij, h.right_inv b hb]
  · intro hspans a ha b hb s hs t ht hst
    obtain ⟨s', hs', i, hi, hsi⟩ := h.forth a ha
    obtain ⟨t', ht', j, hj, htj⟩ := h.forth b hb
    obtain rfl := Option.some.inj (hs'.symm.trans hs)
    obtain rfl := Option.some.inj (ht'.symm.trans ht)
    rw [← hsi.range, ← htj.range] at hst
    rw [← h.left_inv a ha, hspans _ _ i hi j hj hst, h.left_inv b hb]

/-! ## Siblings in order -/

theorem Precedes.range_eq {s t : Rose Item} (h : Precedes s t) (h' : Precedes t s) :
    s.value.range = t.value.range := by
  have hle := (Position.le_total s.value.range.start t.value.range.start)
  rcases h with hts | ⟨hst, hstop⟩
  · rcases h' with hst | ⟨heq, -⟩
    · exact absurd (hle.resolve_right hts) hst
    · exact absurd (heq ▸ Position.le_refl _) hts
  · rcases h' with hst' | ⟨-, hstop'⟩
    · exact absurd (hst ▸ Position.le_refl _) hst'
    · exact Span.eq_of_ends hst (Position.le_antisymm hstop' hstop)

variable {ss ts : Forest Item}

/-- The order looks at the tops of trees only. -/
theorem pairwise_precedes_congr (h : ss.map Rose.value = ts.map Rose.value) :
    ss.Pairwise Precedes ↔ ts.Pairwise Precedes := by
  have tops : ∀ us : Forest Item, us.Pairwise Precedes ↔
      (us.map Rose.value).Pairwise fun i j => Precedes (node i []) (node j []) := by
    intro us
    rw [List.pairwise_map]
    rfl
  rw [tops, tops, h]

/-- Siblings that differ in their order and below them are the same one by one, but for what is below
them, once they are put in order. -/
theorem forall₂_sort (h : Shuffled ss ts) (hspans : (ss.map fun s => s.value.range).Nodup) :
    List.Forall₂ Alike (sort ss) (sort ts) := by
  have hss : (sort ss).Perm ss := List.mergeSort_perm ss _
  have hts : (sort ts).Perm ts := List.mergeSort_perm ts _
  have hshuffled : Shuffled (sort ss) (sort ts) := .trans (.of_perm hss) (h.trans (.of_perm hts.symm))
  obtain ⟨us, hperm, halike⟩ := hshuffled.exists_perm
  have hvalues : us.map Rose.value = (sort ts).map Rose.value := Shuffled.map_value_eq halike
  -- both are in order, and no two trees have the same span, so nothing is rearranged
  have hsorted : us.Pairwise Precedes := (pairwise_precedes_congr hvalues).2 (pairwise_sort ts)
  have heq : sort ss = us := by
    refine hperm.eq_of_pairwise (fun s t hs ht hst hts => ?_) (pairwise_sort ss) hsorted
    exact List.inj_on_of_nodup_map hspans (hss.mem_iff.1 hs) (hss.mem_iff.1 (hperm.mem_iff.2 ht))
      (hst.range_eq hts)
  rwa [heq]

theorem forall₂_filter_value {p : Item → Bool} (h : List.Forall₂ Alike ss ts) :
    List.Forall₂ Alike (ss.filter fun s => p s.value) (ts.filter fun t => p t.value) :=
  List.rel_filter (fun _ _ hst => by simp only [hst.1]) h

theorem forall₂_gather (h : List.Forall₂ Alike ss ts) : List.Forall₂ Alike (gather ss) (gather ts) := by
  fun_induction gather ss generalizing ts with
  | case1 =>
    obtain rfl := List.forall₂_nil_left_iff.1 h
    rw [gather]
    exact .nil
  | case2 s ss ih =>
    obtain ⟨t, ts, hst, hrest, rfl⟩ := List.forall₂_cons_left_iff.1 h
    obtain ⟨i, cs⟩ := s
    obtain ⟨j, ds⟩ := t
    obtain ⟨rfl, hbelow⟩ : i = j ∧ Shuffled cs ds := hst
    have hwithin : List.Forall₂ Alike (within (node i cs) ss) (within (node i ds) ts) :=
      forall₂_filter_value (p := fun j => i.range.Covers j.range) hrest
    have hbeyond : List.Forall₂ Alike (beyond (node i cs) ss) (beyond (node i ds) ts) :=
      forall₂_filter_value (p := fun j => ¬ i.range.Covers j.range) hrest
    rw [gather]
    exact .cons ⟨rfl, hbelow.append (.of_forall₂ hwithin)⟩ (ih hbeyond)

theorem nest_eq_of_shuffled (h : Shuffled ss ts) (hspans : ((valuesAll ss).map Item.range).Nodup) :
    nest ss = nest ts := by
  induction ss using nest.induct generalizing ts with
  | case1 ss ih =>
    have halike : List.Forall₂ Alike (gather (sort ss)) (gather (sort ts)) :=
      forall₂_gather (forall₂_sort h (by
        have := hspans.sublist ((map_value_sublist ss).map Item.range)
        rwa [List.map_map] at this))
    have hvalues : (valuesAll (gather (sort ss))).Perm (valuesAll ss) :=
      (arranges_perm.gather _).trans (arranges_perm.of_perm (List.mergeSort_perm ss _).symm)
    have hgathered := (hvalues.map Item.range).nodup_iff.2 hspans
    -- what is below the trees at the top is nested in turn
    have below : ∀ us vs : Forest Item, List.Forall₂ Alike us vs → (∀ u ∈ us, u ∈ gather (sort ss)) →
        us.map (fun u => node u.value (nest u.children)) = vs.map fun v => node v.value (nest v.children) := by
      intro us vs huv hus
      induction huv with
      | nil => rfl
      | @cons u v us vs huv _ ihuv =>
        have hu := hus u (List.mem_cons_self ..)
        have hnest := ih ⟨u, hu⟩ huv.2 (hgathered.sublist ((valuesAll_children_sublist hu).map _))
        rw [List.map_cons, List.map_cons, huv.1, hnest, ihuv fun w hw => hus w (List.mem_cons_of_mem _ hw)]
    rw [nest_eq, nest_eq]
    exact below _ _ halike fun _ hu => hu

/-- The outline of symbols whose spans differ is the same in whatever order they come, at every level. -/
theorem ofSymbols_eq_of_shuffled {hidden : List Kind} {symbols symbols' : Forest Symbol}
    (h : Shuffled symbols symbols') (hspans : SpansDiffer hidden symbols) :
    ofSymbols hidden symbols = ofSymbols hidden symbols' := by
  have hnest := nest_eq_of_shuffled (shuffled_visible hidden h) (spansDiffer_iff.1 hspans)
  rw [ofSymbols, ofSymbols, hnest]

/-- A hidden symbol and one below it have the spans of others. Of the rest, one lies within another. -/
theorem ofSymbols_eq_of_shuffled_hidden :
    let symbol (kind : Kind) (name : String) (first last : Nat) (below : Forest Symbol) : Rose Symbol :=
      node ⟨⟨kind, name⟩, none, .ofLines first last, .ofLines first first⟩ below
    let f := symbol .function "f" 3 8 []
    let m := symbol .method "m" 1 6 []
    let n := symbol .method "n" 2 4 []
    let v := symbol .variable "v" 0 9 [symbol .function "g" 1 6 []]
    let symbols := [v, symbol .classType "A" 0 9 [m, n], f]
    let symbols' := [f, symbol .classType "A" 0 9 [n, m], v]
    Shuffled symbols symbols' ∧ SpansDiffer [.variable] symbols ∧
      ofSymbols [.variable] symbols = ofSymbols [.variable] symbols' := by
  intro symbol f m n v symbols symbols'
  have hswapped : Shuffled symbols [v, symbol .classType "A" 0 9 [n, m], f] :=
    .cons_tree v (.cons _ (.swap m n []) (.refl [f]))
  have hshuffled : Shuffled symbols symbols' :=
    hswapped.trans (.of_perm (List.reverse_perm _).symm)
  have hspans : SpansDiffer [.variable] symbols := spansDiffer_iff.2 (by decide)
  exact ⟨hshuffled, hspans, ofSymbols_eq_of_shuffled hshuffled hspans⟩

end Outline

end SymbolOutline
