import SymbolOutline.Proofs.Layout

/-
Making an outline of the entries of one gives the same outline (`ofSymbols_mapAll_symbol`).

Siblings are in order and none lies within another, so there is nothing left to put in order or to take
in, at any level (`nest_nest`). And an entry says in the open what its symbol may have said in disguise: a
region is no number any more, whatever its detail looks like, and a number that is left has no marker
(`Means.again`).
-/

namespace SymbolOutline

open Rose Forest

/-! ## Nothing left to arrange -/

namespace Outline

variable {ts : Forest Item}

theorem Beside.precedes {s t : Rose Item} (h : Beside s.value t.value) : Precedes s t := by
  by_cases hts : t.value.range.start ≤ s.value.range.start
  · have hstart := Position.le_antisymm h.start hts
    exact .inr ⟨hstart, h.stop hstart⟩
  · exact .inl hts

theorem sort_eq_self (h : ts.Pairwise Precedes) : sort ts = ts :=
  List.mergeSort_of_pairwise (h.imp decide_eq_true)

/-- Where no tree lies within an earlier one, none goes below another. -/
theorem gather_eq_self (h : ts.Pairwise fun s t => ¬ s.value.range.Covers t.value.range) :
    gather ts = ts := by
  induction ts with
  | nil => rw [gather]
  | cons t ts ih =>
    obtain ⟨hfirst, hrest⟩ := List.pairwise_cons.1 h
    have hwithin : within t ts = [] := by
      refine List.filter_eq_nil_iff.2 fun s hs => ?_
      rw [decide_eq_true_iff]
      exact hfirst s hs
    have hbeyond : beyond t ts = ts := List.filter_eq_self.2 fun s hs => decide_eq_true (hfirst s hs)
    obtain ⟨i, cs⟩ := t
    rw [gather, hwithin, hbeyond, ih hrest, setChildren_node, List.append_nil]

/-- A forest that is nested is so already. -/
theorem nest_nest (ts : Forest Item) : nest (nest ts) = nest ts := by
  induction ts using nest.induct with
  | case1 ts ih =>
    rw [nest_eq ts]
    -- the trees at the top are those that gathering has left beside each other
    generalize hus : (gather (sort ts)).map (fun t => node t.value (nest t.children)) = us
    have hbeside : us.Pairwise fun s t => Beside s.value t.value := by
      rw [← hus, List.pairwise_map]
      exact pairwise_gather (pairwise_sort ts)
    have hbelow : ∀ u ∈ us, node u.value (nest u.children) = u := by
      rw [← hus]
      intro u hu
      obtain ⟨t, ht, rfl⟩ := List.mem_map.1 hu
      rw [value_node, children_node, ih ⟨t, ht⟩]
    rw [nest_eq, sort_eq_self (hbeside.imp Beside.precedes),
      gather_eq_self (hbeside.imp Beside.not_covers)]
    exact (List.map_congr_left hbelow).trans (List.map_id us)

end Outline

/-! ## Entries as symbols -/

/-- An entry as a symbol, with what it says in the open. -/
def Item.symbol (i : Item) : Symbol := ⟨i.key, some i.detail, i.range, i.selection⟩

/-- What a symbol stands for, said in the open, is not in disguise in turn. -/
theorem Symbol.Means.again {s t : Symbol} {kind : Kind} {detail : String} (h : s.Means kind detail)
    (hkind : t.key.kind = kind) (hdetail : t.detail = some detail) : t.Means kind detail := by
  have plain : (kind = .number → ∀ rest, t.detail ≠ some (regionMarker ++ rest) ∧
      t.detail ≠ some (tagMarker ++ rest)) → t.Means kind detail := by
    intro hmarkers
    have := Means.plain (s := t) (hkind ▸ hmarkers)
    rwa [hkind, hdetail, Option.getD_some] at this
  cases h with
  | region => exact plain nofun
  | tag => exact plain nofun
  | plain hmarkers =>
    refine plain fun hnumber rest => ?_
    obtain ⟨hregion, htag⟩ := hmarkers hnumber rest
    rw [hdetail]
    constructor
    · exact fun h => hregion ((getD_eq_append (by decide)).1 (Option.some.inj h))
    · exact fun h => htag ((getD_eq_append (by decide)).1 (Option.some.inj h))

namespace Outline

variable {hidden : List Kind} {ts : Forest Item}

/-- Nothing has happened yet on an entry, and reported as it stands it would be the same entry. -/
structure Plain (hidden : List Kind) (i : Item) : Prop where
  fresh : Item.fresh i.key i.detail i.range i.selection = i
  means : i.symbol.Means i.key.kind i.detail
  notMem : i.key.kind ∉ hidden

theorem plain_of_mem_visible {symbols : Forest Symbol} {i : Item}
    (h : i ∈ valuesAll (visible hidden symbols)) : Plain hidden i := by
  induction symbols using induct_forest with
  | nil => cases h
  | cons s cs ts ihc ih =>
    rw [visible, valuesAll_append] at h
    rcases List.mem_append.1 h with h | h
    · rw [ofSymbol] at h
      simp only at h
      split at h
      · cases h
      · next hs =>
        rw [valuesAll_cons, valuesAll_nil, List.append_nil] at h
        rcases List.mem_cons.1 h with rfl | h
        · exact ⟨rfl, s.means_unmask.again rfl rfl, hs⟩
        · exact ihc h
    · exact ih h

/-- Plain entries that are reported as they stand come out as they are, wherever they stood. -/
theorem visible_mapAll_symbol (base : Path) (h : ∀ i ∈ valuesAll ts, Plain hidden i) :
    visible hidden (mapAll Item.symbol (locateAll base ts)) = ts := by
  induction ts using induct_forest generalizing base with
  | nil => rfl
  | cons i cs ts ihc ih =>
    simp only [valuesAll_cons, List.mem_cons, List.mem_append] at h
    obtain ⟨hfresh, hmeans, hhidden⟩ := h i (.inl rfl)
    have hbelow := ihc (base ++ [i.key]) fun j hj => h j (.inr (.inl hj))
    have hbeside := ih base fun j hj => h j (.inr (.inr hj))
    have hunmask : Symbol.unmask (Item.symbol { i with path := base ++ [i.key] }) =
        (i.key.kind, i.detail) := Symbol.means_iff.1 hmeans
    rw [locateAll_cons, mapAll_cons, map_node, visible, ofSymbol, hunmask, hbelow, hbeside]
    simp only [if_neg hhidden]
    rw [← hfresh]
    rfl

/-- The entries of the outline of some symbols, taken for symbols in turn, have the same outline. -/
theorem ofSymbols_mapAll_symbol (hidden : List Kind) (symbols : Forest Symbol) :
    ofSymbols hidden (mapAll Item.symbol (ofSymbols hidden symbols)) = ofSymbols hidden symbols := by
  have hplain : ∀ i ∈ valuesAll (nest (visible hidden symbols)), Plain hidden i :=
    fun i hi => plain_of_mem_visible ((perm_nest _).mem_iff.1 hi)
  have hvisible := visible_mapAll_symbol [] hplain
  unfold ofSymbols ofForest
  rw [hvisible, nest_nest]

end Outline

end SymbolOutline
