import SymbolOutline.Proofs.Reconcile

/-
The changes from one outline to another leave a display nothing to make up for. Each of them fits
the rows that those in front of it lead to (`fits_changesTo`): the places, entries and siblings that
it names are there, the entries that it brings are not, and an update brings a new value of its
property's type. So siblings have different keys all along (`distinct_applyTo`).

Which rows the changes of a part lead to is known from `Settles` and `Revises`. That the changes fit
is shown along with these, case by case.
-/

namespace SymbolOutline

open Forest Rose

/-! ## Values of properties -/

namespace Row

/-- The value that is displayed for a property. -/
def get (r : Row) : Property → PropertyValue
  | .detail => .text r.detail
  | .range => .span r.range
  | .selection => .span r.selection
  | .expanded => .flag r.expanded
  | .inView => .flag r.inView
  | .focused => .flag r.focused
  | .severity => .severity r.severity
  | .count => .count r.count

theorem get_set_of_ne {property other : Property} (h : other ≠ property) (r : Row)
    (value : PropertyValue) : (r.set property value).get other = r.get other := by
  cases property <;> cases value <;> cases other <;> first | rfl | exact absurd rfl h

end Row

/-! ## Changes that fit -/

/-- A change can be carried out on rows to the letter. What it names is there, and what it brings is
not. Whether an entry is expanded is left to the display, so no update is about that. -/
def Change.FitsIn (roots : Forest Row) : Change → Prop
  | .update path property value =>
    property ≠ .expanded ∧ property.Takes value ∧
      ∃ t ∈ find? roots path, t.value.get property ≠ value
  | .insert path before entries =>
    ∃ ts ∈ container? roots path, (∀ k ∈ before, k ∈ ts.map Rose.key) ∧
      (∀ e ∈ entries, e.key ∉ ts.map Rose.key) ∧ Distinct entries
  | .delete path keys =>
    ∃ ts ∈ container? roots path, keys.Nodup ∧ ∀ k ∈ keys, k ∈ ts.map Rose.key
  | .move path keys before =>
    ∃ ts ∈ container? roots path, keys.Nodup ∧ (∀ k ∈ keys, k ∈ ts.map Rose.key) ∧
      ∀ k ∈ before, k ∈ ts.map Rose.key ∧ k ∉ keys

namespace View

/-- Each change of a batch fits the rows that those in front of it lead to. -/
def AllFit : Forest Row → List Change → Prop
  | _, [] => True
  | roots, c :: cs => c.FitsIn roots ∧ AllFit (applyTo roots c) cs

theorem allFit_append {roots : Forest Row} {cs ds : List Change} :
    AllFit roots (cs ++ ds) ↔ AllFit roots cs ∧ AllFit (cs.foldl applyTo roots) ds := by
  induction cs generalizing roots with
  | nil => simp [AllFit]
  | cons c cs ih => rw [List.cons_append, AllFit, AllFit, ih, and_assoc, List.foldl_cons]

theorem allFit_one {roots : Forest Row} {c : Change} : AllFit roots [c] ↔ c.FitsIn roots :=
  ⟨And.left, fun h => ⟨h, trivial⟩⟩

/-- Rows stay distinct when a change that fits is carried out. -/
theorem distinct_applyTo {roots : Forest Row} {c : Change} (h : c.FitsIn roots)
    (hd : Distinct roots) : Distinct (applyTo roots c) := by
  cases c with
  | update path property value => exact hd.modify fun r => Row.key_set r property value
  | insert path before entries =>
    obtain ⟨ts, hts, -, hfresh, he⟩ := h
    refine hd.modifyContainer fun cs hcs hdcs => ?_
    obtain rfl := Option.some.inj (hts.symm.trans hcs)
    refine Distinct.perm (perm_insertBefore before (rows entries) ts) ?_
    refine distinct_append.2 ⟨?_, hdcs, ?_⟩
    · exact (distinct_mapAll (φ := Item.row) fun _ => rfl).2 he
    · intro s hs t ht hst
      have hk : s.key ∈ (rows entries).map Rose.key := List.mem_map_of_mem hs
      rw [map_key_rows] at hk
      obtain ⟨e, he, hes⟩ := List.mem_map.1 hk
      exact hfresh e he (by rw [hes, hst]; exact List.mem_map_of_mem ht)
  | delete path keys =>
    exact hd.modifyContainer fun cs _ hcs => hcs.sublist (foldl_removeChild_sublist keys cs)
  | move path keys before =>
    refine hd.modifyContainer fun cs _ hcs => ?_
    exact (hcs.perm (perm_takeOut keys cs)).perm (perm_insertBefore ..)

theorem distinct_foldl_applyTo {roots : Forest Row} {cs : List Change} (h : AllFit roots cs)
    (hd : Distinct roots) : Distinct (cs.foldl applyTo roots) := by
  induction cs generalizing roots with
  | nil => exact hd
  | cons c cs ih => exact ih h.2 (distinct_applyTo h.1 hd)

end View

namespace Outline

open View

variable {place : Path} {next : Option Key} {pre post : Forest Row} {roots : Forest Row}

/-! ## Updates of a matched entry fit -/

/-- Updates fit that are made for differences between what is displayed and other values. -/
theorem allFit_compared {r : Row} {rs : Forest Row} (hroots : (container? roots place).isSome)
    (hpre : ∀ s ∈ pre, s.key ≠ r.key)
    {cs : List ((Property × PropertyValue) × Property × PropertyValue)}
    (hcs : ∀ c ∈ cs, c.2.1 ≠ .expanded ∧ c.2.1.Takes c.2.2 ∧ r.get c.2.1 = c.1.2)
    (hnodup : (cs.map fun c => c.2.1).Nodup) :
    AllFit (put place (pre ++ node r rs :: post) roots)
      (cs.filterMap (Change.compared (place ++ [r.key]))) := by
  induction cs generalizing r with
  | nil => trivial
  | cons c cs ih =>
    obtain ⟨⟨hexp, htakes, hget⟩, hcs⟩ := List.forall_mem_cons.1 hcs
    obtain ⟨hc, hnodup⟩ := List.nodup_cons.1 hnodup
    by_cases heq : c.1.2 = c.2.2
    · have hnone : Change.compared (place ++ [r.key]) c = none := if_pos heq
      rw [List.filterMap_cons_none hnone]
      exact ih hpre hcs hnodup
    · have hsome : Change.compared (place ++ [r.key]) c =
          some (.update (place ++ [r.key]) c.2.1 c.2.2) := if_neg heq
      rw [List.filterMap_cons_some hsome]
      constructor
      · refine ⟨hexp, htakes, node r rs, ?_, by rwa [value_node, hget]⟩
        rw [Option.mem_def, find?_concat, container?_put hroots, Option.bind_some]
        exact child?_append (t := node r rs) hpre
      · -- the other properties are displayed as before
        show AllFit (modify _ (place ++ [(node r rs).key]) _) _
        rw [modify_put_concat _ _ (t := node r rs) hpre, ← Row.key_set r c.2.1 c.2.2]
        refine ih (by rwa [Row.key_set]) (fun d hd => ?_) hnodup
        obtain ⟨hexp', htakes', hget'⟩ := hcs d hd
        have hne : d.2.1 ≠ c.2.1 := fun heq => hc (List.mem_map.2 ⟨d, hd, heq⟩)
        exact ⟨hexp', htakes', by rw [Row.get_set_of_ne hne, hget']⟩

theorem allFit_updatesTo {i j : Item} (hroots : (container? roots place).isSome)
    (hpre : ∀ s ∈ pre, s.key ≠ i.key) (hj : j.path = place ++ [i.key]) (rs : Forest Row) :
    AllFit (put place (pre ++ node i.row rs :: post) roots) (i.updatesTo j) := by
  rw [Item.updatesTo_eq, hj]
  refine allFit_compared (r := i.row) hroots hpre ?_ ?_
  · simp [Item.shown, Property.Takes, Row.get, Item.row]
  · show [Property.detail, .range, .selection, .inView, .focused, .severity, .count].Nodup
    decide

/-! ## Each case of a comparison -/

/-- Changes at a place fit where what is left of its old siblings stands between rows that are
done. -/
def FitsBetween (place : Path) (old new : Forest Item) (next : Option Key) (d : Delta) : Prop :=
  ∀ {pre post}, Between place old new next pre post → ∀ {roots},
    (container? roots place).isSome → AllFit (put place (pre ++ rows old ++ post) roots) d.changes

/-- Changes for a matched entry fit where its row stands among others. -/
def FitsAt (o n : Rose Item) (d : Delta) : Prop :=
  ∀ {place pre post}, o.key = n.key → Located place [n] → Distinct o.children →
    Distinct n.children → (∀ s ∈ pre, s.key ≠ o.key) → ∀ {roots},
    (container? roots place).isSome →
      AllFit (put place (pre ++ o.map Item.row :: post) roots) d.changes

theorem FitsAt.of_fitsBetween {o n : Rose Item} {d : Delta}
    (h : FitsBetween n.value.path o.children n.children none d) :
    FitsAt o n (⟨o.value.updatesTo n.value, [(n.value.path, o.value.expanded)]⟩ ++ d) := by
  obtain ⟨i, os⟩ := o
  obtain ⟨j, ns⟩ := n
  simp only [value_node, children_node] at h ⊢
  intro place pre post hk hloc hos hns hpre roots hroots
  obtain ⟨hj, hloc, -⟩ := located_cons.1 hloc
  rw [← hj] at hloc
  have hij : i.key = j.key := hk
  have hji : j.path = place ++ [i.row.key] := by rw [hj, Item.key_row, hij]
  have hupd : ∀ c ∈ i.updatesTo j,
      ∃ property value, c = .update (place ++ [i.row.key]) property value := by
    intro c hc
    obtain ⟨property, value, rfl⟩ := Item.mem_updatesTo hc
    exact ⟨property, value, by rw [hji]⟩
  rw [Delta.changes_append, map_node, allFit_append, View.foldl_applyTo_put hpre hupd]
  refine ⟨allFit_updatesTo hroots hpre hji _, ?_⟩
  -- the key of the row stays, so its place is still where the rows below it are
  obtain ⟨r, hr⟩ : ∃ r, r = (i.updatesTo j).foldl (Row.receive (place ++ [i.row.key])) i.row :=
    ⟨_, rfl⟩
  have hrk : i.row.key = r.key := by rw [hr, Row.key_foldl_receive]
  have hpre' : ∀ s ∈ pre, s.key ≠ r.key := fun s hs => hrk ▸ hpre s hs
  have hput : put j.path (rows os) (put place (pre ++ node r [] :: post) roots) =
      put place (pre ++ node r (rows os) :: post) roots := by
    rw [hji, hrk]
    exact put_concat place (t := node r []) hpre' (rows os) roots
  have hbelow : (container? (put place (pre ++ node r [] :: post) roots) j.path).isSome := by
    have hchild : child? (pre ++ node r [] :: post) r.key = some (node r []) :=
      child?_append (t := node r []) hpre'
    rw [hji, hrk, container?_concat, find?_concat, container?_put hroots, Option.bind_some, hchild]
    rfl
  have := h (Between.whole hloc hos hns) hbelow
  rw [List.nil_append, List.append_nil, hput] at this
  rw [← hr]
  exact this

theorem mem_keys_of_head? {ts us : Forest Row} {k : Key} (h : k ∈ ts.head?.map Rose.key) :
    k ∈ (us ++ ts).map Rose.key := by
  obtain ⟨t, ht, rfl⟩ := Option.map_eq_some_iff.1 h
  exact List.mem_map_of_mem (List.mem_append_right _ (List.mem_of_head? ht))

theorem notMem_keys_of_nodup {ts us vs : Forest Row} {k : Key}
    (h : ((us ++ ts ++ vs).map Rose.key).Nodup) (hk : k ∈ ts.map Rose.key) :
    k ∉ (us ++ vs).map Rose.key := by
  simp only [List.map_append, List.append_assoc, List.nodup_append, List.mem_append] at h ⊢
  rintro (hu | hv)
  · exact h.2.2 k hu k (.inl hk) rfl
  · exact h.2.1.2.2 k hk k hv rfl

theorem allFit_exchange {old new : Forest Item} (hroots : (container? roots place).isSome)
    (hold : ((pre ++ rows old ++ post).map Rose.key).Nodup)
    (hnew : ((pre ++ rows new ++ post).map Rose.key).Nodup) (hd : Distinct new) :
    AllFit (put place (pre ++ rows old ++ post) roots)
      (exchange place old new (post.head?.map Rose.key)).changes := by
  unfold exchange
  rw [Delta.changes_append, allFit_append, foldl_applyTo_leave hold]
  constructor
  · split
    · trivial
    · have hkeys : (old.map Rose.key).Sublist ((pre ++ rows old ++ post).map Rose.key) := by
        rw [← map_key_rows, List.append_assoc]
        exact ((List.sublist_append_left ..).trans (List.sublist_append_right ..)).map _
      exact allFit_one.2 ⟨_, container?_put hroots _, hkeys.nodup hold, fun k hk => hkeys.subset hk⟩
  · split
    · trivial
    · refine allFit_one.2 ⟨_, container?_put hroots _, fun k hk => mem_keys_of_head? hk, ?_, hd⟩
      intro e he
      refine notMem_keys_of_nodup hnew ?_
      rw [map_key_rows]
      exact List.mem_map_of_mem he

theorem FitsBetween.exchange {old new : Forest Item} :
    FitsBetween place old new next (Outline.exchange place old new next) := by
  intro pre post h roots hroots
  rw [h.next_eq]
  exact allFit_exchange hroots h.old_keys h.new_keys h.new_distinct

theorem FitsBetween.fresh {o n : Rose Item} {os ns : Forest Item}
    (hn : ∀ s ∈ o :: os, s.key ≠ n.key) :
    FitsBetween place (o :: os) (n :: ns) next
      (.just (.insert place (some o.key) [n]) ++ Outline.exchange place (o :: os) ns next) := by
  intro pre post h roots hroots
  obtain ⟨hold, hnew⟩ := h.fresh hn
  obtain ⟨-, hdn, hdns⟩ := distinct_cons.1 h.new_distinct
  rw [Delta.changes_append, allFit_append]
  constructor
  · refine allFit_one.2 ⟨_, container?_put hroots _, fun k hk => ?_, fun e he => ?_, ?_⟩
    · obtain rfl := Option.some.inj hk
      simp [rows_cons]
    · obtain rfl := List.mem_singleton.1 he
      rw [List.append_assoc] at hold ⊢
      exact notMem_keys_of_nodup hold (by simp [rows_cons])
    · exact distinct_cons.2 ⟨fun _ h => absurd h List.not_mem_nil, hdn, distinct_nil⟩
  · have step : (Delta.just (.insert place (some o.key) [n])).changes.foldl View.applyTo
        (put place (pre ++ rows (o :: os) ++ post) roots) = _ := h.applyTo_fresh n roots
    rw [step, h.next_eq]
    exact allFit_exchange hroots hold hnew hdns

section

variable {l r ns : Forest Item} {o n : Rose Item} {d e : Delta}

/-- The changes for a matched entry fit, and so does its passing of siblings in front of one that is
there. -/
theorem allFit_pass (us : Forest Item) {vs passed : Forest Item} {before : Option Key}
    (hk : o.key = n.key) (hd : Revises o n d) (hf : FitsAt o n d)
    (h : Between place (l ++ o :: r) (us ++ n :: vs) next pre post)
    (hbefore : passed ≠ [] → ∀ k ∈ before, k ∈ (pre ++ rows (l ++ r) ++ post).map Rose.key)
    (hroots : (container? roots place).isSome) :
    AllFit (put place (pre ++ rows (l ++ o :: r) ++ post) roots)
      (d ++ pass place passed o.key before).changes := by
  obtain ⟨hloc, ho, hn⟩ := h.matched us
  have hkeys := h.old_keys
  have hstand : pre ++ rows (l ++ o :: r) ++ post =
      (pre ++ rows l) ++ o.map Item.row :: (rows r ++ post) := by
    simp [rows_append, rows_cons]
  have hothers : pre ++ rows (l ++ r) ++ post = (pre ++ rows l) ++ (rows r ++ post) := by
    simp [rows_append]
  rw [hstand] at hkeys ⊢
  rw [hothers] at hbefore
  have hother : o.key ∉ ((pre ++ rows l) ++ (rows r ++ post)).map Rose.key := by
    have := (List.perm_middle.map Rose.key).nodup hkeys
    rw [List.map_cons, key_map_row] at this
    exact (List.nodup_cons.1 this).1
  have hpre : ∀ s ∈ pre ++ rows l, s.key ≠ o.key := fun s hs hso =>
    hother (hso ▸ List.mem_map_of_mem (List.mem_append_left _ hs))
  rw [Delta.changes_append, allFit_append, hd.foldl_applyTo hk hloc ho hn hpre]
  refine ⟨hf hk hloc ho hn hpre hroots, ?_⟩
  unfold pass
  split
  · trivial
  · rename_i hpassed
    obtain ⟨t, ht⟩ : ∃ t, t = (n.map (Item.lend d.kept)).map Item.row := ⟨_, rfl⟩
    have htk : t.key = o.key := by rw [ht, key_lent, hk]
    rw [← ht]
    refine allFit_one.2 ⟨_, container?_put hroots _, List.nodup_cons.2 ⟨List.not_mem_nil, .nil⟩,
      fun k hmem => ?_, fun k hmem => ?_⟩
    · obtain rfl := List.mem_singleton.1 hmem
      simp [htk]
    · have hk := hbefore hpassed k hmem
      refine ⟨?_, fun hself => hother (List.mem_singleton.1 hself ▸ hk)⟩
      rw [List.map_append, List.mem_append] at hk ⊢
      exact hk.imp_right (List.mem_cons_of_mem _)

theorem FitsBetween.front (hk : o.key = n.key) (hd : Revises o n d) (hf : FitsAt o n d)
    (he : FitsBetween place (l ++ r) ns next e) :
    FitsBetween place (l ++ o :: r) (n :: ns) next
      (d ++ pass place l o.key (l.head?.map Rose.key) ++ e) := by
  intro pre post h roots hroots
  rw [Delta.changes_append, allFit_append, hd.foldl_applyTo_front hk h]
  constructor
  · refine allFit_pass [] hk hd hf h (fun _ k hmem => ?_) hroots
    obtain ⟨s, hs, rfl⟩ := Option.map_eq_some_iff.1 hmem
    have : s.key ∈ (rows (l ++ r)).map Rose.key := by
      rw [map_key_rows]
      exact List.mem_map_of_mem (List.mem_append_left _ (List.mem_of_head? hs))
    simp only [List.map_append, List.mem_append]
    exact .inl (.inr this)
  · have := he (h.front hk (key_lent n d.kept)) hroots
    simpa using this

theorem FitsBetween.back (hk : o.key = n.key) (hd : Revises o n d) (hf : FitsAt o n d)
    (he : FitsBetween place (l ++ r) ns (some n.key) e) :
    FitsBetween place (l ++ o :: r) (ns ++ [n]) next (d ++ pass place r o.key next ++ e) := by
  intro pre post h roots hroots
  rw [Delta.changes_append, allFit_append, hd.foldl_applyTo_back hk h]
  constructor
  · refine allFit_pass ns hk hd hf h (fun _ k hmem => ?_) hroots
    rw [h.next_eq] at hmem
    exact mem_keys_of_head? hmem
  · exact he (h.back hk (key_lent n d.kept)) hroots

end

theorem fitsBetween_reconcile (place : Path) (old new : Forest Item) (next : Option Key) :
    FitsBetween place old new next (reconcile place old new next) := by
  refine (reconcile_induct (R := fun o n d => Revises o n d ∧ FitsAt o n d)
    (P := fun place old new next d => Settles place old new next d ∧
      FitsBetween place old new next d) ?_ ?_ ?_ ?_ ?_ place old new next).2
  · rintro o n d ⟨hd, hf⟩
    exact ⟨.of_settles hd, FitsAt.of_fitsBetween hf⟩
  · intro place old new next _
    exact ⟨.exchange place old new next, FitsBetween.exchange⟩
  · rintro place l o r n ns next d e hk ⟨hd, hf⟩ ⟨he, hfe⟩
    exact ⟨.front hk hd he, FitsBetween.front hk hd hf hfe⟩
  · rintro place l o r n ns next d e _ hk ⟨hd, hf⟩ ⟨he, hfe⟩
    exact ⟨.back hk hd he, FitsBetween.back hk hd hf hfe⟩
  · intro place o os n ns next hn _
    exact ⟨.fresh hn, FitsBetween.fresh hn⟩

/-! ## Whole outlines -/

/-- The changes from one outline to another fit, each of them when those in front of it are carried
out, and siblings have different keys whenever a change is carried out. -/
theorem fits_changesTo {old new : Outline} (ho : Distinct old) (hn : new.WellKeyed) :
    (∀ cs c, cs ++ [c] <+: (old.changesTo new).changes →
      c.FitsIn ((View.ofForest old).applyAll cs).roots) ∧
    ∀ cs, cs <+: (old.changesTo new).changes →
      Distinct ((View.ofForest old).applyAll cs).roots := by
  have hall : AllFit (rows old) (old.changesTo new).changes := by
    have hroot : (container? ([] : Forest Row) []).isSome := rfl
    have := fitsBetween_reconcile [] old new none (.whole hn.located ho hn.distinct) hroot
    rwa [List.nil_append, List.append_nil, put_nil] at this
  have hrows : Distinct (rows old) := (distinct_mapAll (φ := Item.row) fun _ => rfl).2 ho
  constructor
  · rintro cs c ⟨rest, heq⟩
    rw [← heq, allFit_append, allFit_append, allFit_one] at hall
    exact hall.1.2
  · rintro cs ⟨rest, heq⟩
    rw [← heq, allFit_append] at hall
    exact distinct_foldl_applyTo hall.1 hrows

/-- Two entries change places, one of them loses an entry below, and the other one gets one. -/
theorem fits_changesTo_swapped :
    let entry (name : String) : Item := .fresh ⟨.function, name⟩ "" (.ofLines 0 1) (.ofLines 0 0)
    let old := ofForest [node (entry "a") [node (entry "b") []], node (entry "b") []]
    let new := ofForest [node (entry "b") [node (entry "c") []], node (entry "a") []]
    Distinct old ∧ new.WellKeyed ∧
      (∀ cs c, cs ++ [c] <+: (old.changesTo new).changes →
        c.FitsIn ((View.ofForest old).applyAll cs).roots) ∧
      ∀ cs, cs <+: (old.changesTo new).changes →
        Distinct ((View.ofForest old).applyAll cs).roots :=
  have hn := WellKeyed.ofForest (by decide)
  ⟨by decide, hn, fits_changesTo (by decide) hn⟩

end Outline

end SymbolOutline
