import SymbolOutline.Change.Reconcile
import SymbolOutline.Proofs.Expansion
import SymbolOutline.Proofs.View

/-
The changes from one outline to another, carried out in order on the rows of the first, give the
rows of the second with the expansion of the first lent to it (`foldl_applyTo_changesTo`).

The comparison of siblings takes one entry after another off the ends of what is left, so the rows
of a place always read: rows that are done, rows of the old siblings left, rows that are done. What
holds of each step holds of the comparison by `reconcile_induct`, which has one case for a match at
the front, one for a match at the back, and two for the ways in which the matching ends.
-/

namespace SymbolOutline

@[simp] theorem Delta.append_none (d : Delta) : d ++ Delta.none = d := by
  obtain ⟨changes, kept⟩ := d
  show Delta.mk (changes ++ []) (kept ++ []) = _
  rw [List.append_nil, List.append_nil]

/-! ## Updates of a matched entry -/

/-- The update of a property that is compared, if its value is another one. -/
def Change.compared (p : Path) (c : (Property × PropertyValue) × Property × PropertyValue) :
    Option Change :=
  if c.1.2 = c.2.2 then none else some (.update p c.2.1 c.2.2)

theorem Item.updatesTo_eq (i j : Item) :
    i.updatesTo j = (i.shown.zip j.shown).filterMap (Change.compared j.path) := rfl

theorem Item.mem_updatesTo {i j : Item} {c : Change} (h : c ∈ i.updatesTo j) :
    ∃ property value, c = .update j.path property value := by
  obtain ⟨⟨old, new⟩, -, hc⟩ := List.mem_filterMap.1 h
  obtain ⟨-, hc⟩ := Option.ite_none_left_eq_some.1 hc
  exact ⟨_, _, (Option.some.inj hc).symm⟩

/-- A value that is compared is shown afterwards, whether it had to be updated or not. -/
theorem Row.foldl_receive_compared {p : Path} {r : Row} {property : Property} {old : PropertyValue}
    (h : r.set property old = r) (new : PropertyValue)
    (cs : List ((Property × PropertyValue) × Property × PropertyValue)) :
    ((((property, old), (property, new)) :: cs).filterMap (Change.compared p)).foldl (receive p) r =
      (cs.filterMap (Change.compared p)).foldl (receive p) (r.set property new) := by
  by_cases hon : old = new
  · subst hon
    have : Change.compared p ((property, old), (property, old)) = none := if_pos rfl
    rw [List.filterMap_cons_none this, h]
  · have : Change.compared p ((property, old), (property, new)) =
        some (.update p property new) := if_neg hon
    rw [List.filterMap_cons_some this, List.foldl_cons]
    congr 1
    exact if_pos rfl

theorem Item.foldl_receive_updatesTo {i j : Item} (h : i.key = j.key) :
    (i.updatesTo j).foldl (Row.receive j.path) i.row = { j.row with expanded := i.expanded } := by
  rw [updatesTo_eq]
  unfold shown
  simp only [List.zip_cons_cons, List.zip_nil_right]
  rw [Row.foldl_receive_compared rfl, Row.foldl_receive_compared rfl, Row.foldl_receive_compared rfl,
    Row.foldl_receive_compared rfl, Row.foldl_receive_compared rfl, Row.foldl_receive_compared rfl,
    Row.foldl_receive_compared rfl]
  simp [Row.set, row, h]

namespace Outline

open Forest Rose

/-! ## The cases of a comparison -/

/-- A matched entry is moved if it has siblings to pass. -/
def pass (place : Path) (passed : Forest Item) (k : Key) (before : Option Key) : Delta :=
  if passed = [] then .none else .just (.move place [k] before)

/-- Induction along a comparison, with a property `R` of matched entries and a property `P` of the
siblings left at a place. -/
theorem reconcile_induct {R : Rose Item → Rose Item → Delta → Prop}
    {P : Path → Forest Item → Forest Item → Option Key → Delta → Prop}
    (matched : ∀ o n d, P n.value.path o.children n.children none d →
      R o n (⟨o.value.updatesTo n.value, [(n.value.path, o.value.expanded)]⟩ ++ d))
    (ended : ∀ place old new next, old = [] ∨ new = [] →
      P place old new next (exchange place old new next))
    (front : ∀ place l o r n ns next d e, o.key = n.key → R o n d → P place (l ++ r) ns next e →
      P place (l ++ o :: r) (n :: ns) next (d ++ pass place l o.key (l.head?.map Rose.key) ++ e))
    (back : ∀ place l o r n ns next d e, l = [] ∨ r = [] → o.key = n.key → R o n d →
      P place (l ++ r) ns (some n.key) e →
      P place (l ++ o :: r) (ns ++ [n]) next (d ++ pass place r o.key next ++ e))
    (fresh : ∀ place o os n ns next, (∀ s ∈ o :: os, s.key ≠ n.key) →
      (∀ m ∈ (n :: ns).getLast?, o.key ≠ m.key ∧ ∀ s ∈ (o :: os).getLast?, s.key ≠ m.key) →
      P place (o :: os) (n :: ns) next
        (.just (.insert place (some o.key) [n]) ++ exchange place (o :: os) ns next))
    (place : Path) (old new : Forest Item) (next : Option Key) :
    P place old new next (reconcile place old new next) := by
  have noneLeft : ∀ place new next, reconcile place [] new next = exchange place [] new next :=
    fun place new next => by rw [reconcile]
  have noneCome : ∀ place old next, reconcile place old [] next = exchange place old [] next := by
    intro place old next
    cases old with
    | nil => exact noneLeft ..
    | cons o os => rw [reconcile]; simp
  refine (revise.mutual_induct_unfolding R P ?_ ?_ ?_ ?_ ?_ ?_ ?_ ?_ ?_).2 place old new next
  · -- below a matched entry nothing is compared where one side is empty, which comes to the same
    intro o n h
    have := matched o n _ h
    by_cases hn : n.children = []
    · rw [if_pos hn]
      rwa [hn, noneCome] at this
    · rw [if_neg hn]
      by_cases ho : o.children = []
      · rw [if_pos ho]
        rwa [ho, noneLeft] at this
      · rwa [if_neg ho]
  · exact fun place next new => ended _ _ _ _ (.inl rfl)
  · exact fun place next old _ => ended _ _ _ _ (.inr rfl)
  · -- first with first
    intro place next o os n ns hk hr hp
    have := front place [] o os n ns next _ _ hk hr hp
    simpa [pass] using this
  · -- last with last
    intro place next o os n ns oLast nLast _ hk hr hp
    have ho := List.dropLast_concat_getLast (List.cons_ne_nil o os)
    have hn := List.dropLast_concat_getLast (List.cons_ne_nil n ns)
    have := back place (o :: os).dropLast oLast [] nLast (n :: ns).dropLast next _ _ (.inr rfl) hk hr
      (by simpa using hp)
    rw [ho, hn] at this
    simpa [pass] using this
  · -- first with last, which is another one since the two ends differ
    intro place next o os n ns oLast nLast _ hl hk hr hp
    have hos : os ≠ [] := fun h => hl (by subst h; exact hk)
    have hn := List.dropLast_concat_getLast (List.cons_ne_nil n ns)
    have := back place [] o os nLast (n :: ns).dropLast next _ _ (.inl rfl) hk hr hp
    rw [hn] at this
    simpa [pass, hos] using this
  · -- last with first
    intro place next o os n ns oLast nLast hf _ _ hk hr hp
    have hos : os ≠ [] := fun h => hf (by subst h; exact hk)
    obtain ⟨p, ps, rfl⟩ := List.exists_cons_of_ne_nil hos
    have ho := List.dropLast_concat_getLast (List.cons_ne_nil o (p :: ps))
    have := front place (o :: p :: ps).dropLast oLast [] n ns next _ _ hk hr (by simpa using hp)
    rw [ho] at this
    simpa [pass] using this
  · -- the first new entry is somewhere among the old ones, behind the first of them
    intro place next o os n ns oLast nLast hf _ _ _ m hm hr hp
    obtain ⟨hk, l, r, hos, hl⟩ := child?_eq_some hm
    rw [hos, ← hk, removeChild_append fun s hs => hk ▸ hl s hs] at hp
    obtain ⟨l, rfl⟩ : ∃ l', l = o :: l' := by
      cases l with
      | nil =>
        obtain ⟨rfl, -⟩ := List.cons.inj hos
        exact absurd hk hf
      | cons p l => exact ⟨l, by rw [(List.cons.inj hos).1]⟩
    have := front place (o :: l) m r n ns next _ _ hk hr hp
    rw [← hos] at this
    rw [hos, ← hk, removeChild_append fun s hs => hk ▸ hl s hs]
    simpa [pass, hos] using this
  · -- the first new entry is new, and the last one is at neither end of the old ones
    intro place next o os n ns oLast nLast _ hl hf _ hm
    have ho : (o :: os).getLast? = some oLast := List.getLast?_eq_some_getLast _
    have hn : (n :: ns).getLast? = some nLast := List.getLast?_eq_some_getLast _
    refine fresh place o os n ns next (child?_eq_none hm) fun m hm' => ?_
    rw [hn] at hm'
    obtain rfl := Option.some.inj hm'
    refine ⟨hf, fun s hs => ?_⟩
    rw [ho] at hs
    exact Option.some.inj hs ▸ hl

/-! ## Expansion kept for parts of a place -/

/-- Entries are for items of a forest. -/
def EntriesOf (ts : Forest Item) (es : List (Path × Bool)) : Prop :=
  ∀ e ∈ es, ∃ i ∈ valuesAll ts, i.path = e.1

variable {place : Path} {next : Option Key}

theorem EntriesOf.append {ss ts us : Forest Item} {ds es : List (Path × Bool)}
    (hd : EntriesOf ss ds) (he : EntriesOf ts es)
    (h : ∀ i, i ∈ valuesAll ss ∨ i ∈ valuesAll ts → i ∈ valuesAll us) : EntriesOf us (ds ++ es) := by
  intro e hmem
  rcases List.mem_append.1 hmem with hmem | hmem
  · obtain ⟨i, hi, hp⟩ := hd e hmem
    exact ⟨i, h i (.inl hi), hp⟩
  · obtain ⟨i, hi, hp⟩ := he e hmem
    exact ⟨i, h i (.inr hi), hp⟩

/-- Entries for some trees do not reach the trees beside them. -/
theorem EntriesOf.path_ne {ss ts : Forest Item} {es : List (Path × Bool)} (hes : EntriesOf ts es)
    (hs : Located place ss) (ht : Located place ts) (hk : ∀ s ∈ ss, ∀ t ∈ ts, s.key ≠ t.key) :
    ∀ i ∈ valuesAll ss, ∀ e ∈ es, i.path ≠ e.1 := by
  intro i hi e he
  obtain ⟨j, hj, hje⟩ := hes e he
  obtain ⟨s, hs, q, hq⟩ := path_of_mem hs hi
  obtain ⟨t, ht, q', hq'⟩ := path_of_mem ht hj
  rw [← hje, hq, hq']
  intro heq
  exact hk s hs t ht (List.cons.inj (List.append_cancel_left heq)).1

theorem mapAll_lend_append {ss ts : Forest Item} {ds es : List (Path × Bool)}
    (hs : Located place ss) (ht : Located place ts) (hk : ∀ s ∈ ss, ∀ t ∈ ts, s.key ≠ t.key)
    (hd : EntriesOf ss ds) (he : EntriesOf ts es) :
    mapAll (Item.lend (ds ++ es)) ss = mapAll (Item.lend ds) ss ∧
      mapAll (Item.lend (ds ++ es)) ts = mapAll (Item.lend es) ts := by
  have hd' := hd.path_ne ht hs fun t ht s hs => (hk s hs t ht).symm
  have he' := he.path_ne hs ht hk
  constructor
  · refine mapAll_congr fun i hi => ?_
    rw [Item.lend_append]
    exact Item.lend_of_forall_ne fun e hmem => by rw [Item.lend_path]; exact he' i hi e hmem
  · refine mapAll_congr fun i hi => ?_
    rw [Item.lend_append, Item.lend_of_forall_ne (hd' i hi)]

theorem key_lent (n : Rose Item) (es : List (Path × Bool)) :
    ((n.map (Item.lend es)).map Item.row).key = n.key := by
  rw [key_map_row, key_map fun i => Item.lend_key es i]

/-! ## What is left between rows that are done -/

/-- What is left of the old and of the new siblings at a place, and the rows that are done before
and behind it. -/
structure Between (place : Path) (old new : Forest Item) (next : Option Key)
    (pre post : Forest Row) : Prop where
  located : Located place new
  old_distinct : Distinct old
  new_distinct : Distinct new
  old_keys : ((pre ++ rows old ++ post).map Rose.key).Nodup
  new_keys : ((pre ++ rows new ++ post).map Rose.key).Nodup
  next_eq : next = post.head?.map Rose.key

/-- The changes at a place turn the rows of the old siblings left into those of the new ones. -/
structure Settles (place : Path) (old new : Forest Item) (next : Option Key) (d : Delta) : Prop where
  kept : EntriesOf new d.kept
  foldl_applyTo : ∀ {pre post}, Between place old new next pre post → ∀ roots,
    d.changes.foldl View.applyTo (put place (pre ++ rows old ++ post) roots) =
      put place (pre ++ rows (mapAll (Item.lend d.kept) new) ++ post) roots

/-- The changes for a matched entry turn its row and those below it into those of the new entry. -/
structure Revises (o n : Rose Item) (d : Delta) : Prop where
  kept : EntriesOf [n] d.kept
  foldl_applyTo : ∀ {place pre post}, o.key = n.key → Located place [n] →
    Distinct o.children → Distinct n.children → (∀ s ∈ pre, s.key ≠ o.key) → ∀ roots,
    d.changes.foldl View.applyTo (put place (pre ++ o.map Item.row :: post) roots) =
      put place (pre ++ (n.map (Item.lend d.kept)).map Item.row :: post) roots

@[simp] theorem kept_pass (place : Path) (passed : Forest Item) (k : Key) (before : Option Key) :
    (pass place passed k before).kept = [] := by
  unfold pass
  split <;> rfl

/-- Passing its siblings brings a row where it is to stand. -/
theorem foldl_applyTo_pass {l r pre post : Forest Row} {t : Rose Row} {passed : Forest Item}
    {before : Option Key} (h : ((l ++ t :: r).map Rose.key).Nodup) (hlr : l ++ r = pre ++ post)
    (hp : passed = [] → l = pre) (hb : passed ≠ [] → before = post.head?.map Rose.key)
    (roots : Forest Row) :
    (pass place passed t.key before).changes.foldl View.applyTo (put place (l ++ t :: r) roots) =
      put place (pre ++ t :: post) roots := by
  unfold pass
  split
  · rename_i hnil
    obtain rfl := hp hnil
    rw [List.append_cancel_left hlr]; rfl
  · rename_i hne
    rw [hb hne]
    exact View.applyTo_move h hlr roots

section

variable {l r ns : Forest Item} {o n : Rose Item} {pre post : Forest Row} {t : Rose Row}

/-- A match at the front leaves one row more that is done before those that are left. -/
theorem Between.front (h : Between place (l ++ o :: r) (n :: ns) next pre post)
    (hk : o.key = n.key) (ht : t.key = n.key) : Between place (l ++ r) ns next (pre ++ [t]) post where
  located := (located_head_tail.1 h.located).2
  old_distinct := (distinct_remove h.old_distinct).2
  new_distinct := (distinct_cons.1 h.new_distinct).2.2
  old_keys := by
    have := h.old_keys
    rw [rows_append, rows_cons] at this
    rw [rows_append]
    exact (keys_perm_front (by rw [ht, key_map_row, hk])).nodup this
  new_keys := by
    have := h.new_keys
    rw [rows_cons] at this
    exact (keys_perm_front (l := []) (by rw [ht, key_map_row])).nodup this
  next_eq := h.next_eq

/-- A match at the back leaves one row more that is done behind those that are left. -/
theorem Between.back (h : Between place (l ++ o :: r) (ns ++ [n]) next pre post)
    (hk : o.key = n.key) (ht : t.key = n.key) :
    Between place (l ++ r) ns (some n.key) pre (t :: post) where
  located := (located_append.1 h.located).1
  old_distinct := (distinct_remove h.old_distinct).2
  new_distinct := (distinct_append.1 h.new_distinct).1
  old_keys := by
    have := h.old_keys
    rw [rows_append, rows_cons] at this
    rw [rows_append]
    exact (keys_perm_back (by rw [ht, key_map_row, hk])).nodup this
  new_keys := by
    have := h.new_keys
    rw [rows_append, rows_cons] at this
    have := (keys_perm_back (t := t) (by rw [ht, key_map_row])).nodup this
    rwa [rows_nil, List.append_nil] at this
  next_eq := by rw [← ht]; rfl

theorem Between.matched (us : Forest Item) {vs : Forest Item}
    (h : Between place (l ++ o :: r) (us ++ n :: vs) next pre post) :
    Located place [n] ∧ Distinct o.children ∧ Distinct n.children :=
  ⟨(located_head_tail.1 (located_append.1 h.located).2).1, (distinct_remove h.old_distinct).1,
    (distinct_remove h.new_distinct).1⟩

/-- A new sibling at the front that is not among the old ones has another key than the rows there
are, and than those there will be. -/
theorem Between.fresh {os : Forest Item} (h : Between place (o :: os) (n :: ns) next pre post)
    (hn : ∀ s ∈ o :: os, s.key ≠ n.key) :
    ((pre ++ rows [n] ++ rows (o :: os) ++ post).map Rose.key).Nodup ∧
      ((pre ++ rows [n] ++ rows ns ++ post).map Rose.key).Nodup := by
  constructor
  · have hmem := (List.nodup_cons.1 (keys_perm_middle.nodup h.new_keys)).1
    rw [show pre ++ rows [n] ++ rows (o :: os) = pre ++ n.map Item.row :: rows (o :: os) by
      simp [rows_cons]]
    refine keys_perm_middle.symm.nodup (List.nodup_cons.2 ⟨?_, h.old_keys⟩)
    simp only [List.map_append, List.mem_append, key_map_row, map_key_rows] at hmem ⊢
    rintro ((hm | hm) | hm)
    · exact hmem (.inl (.inl hm))
    · exact forall_key_ne.1 hn hm
    · exact hmem (.inr hm)
  · have := h.new_keys
    rw [rows_cons] at this
    exact (keys_perm_front (l := []) rfl).nodup this

end

/-- At first nothing is done. -/
theorem Between.whole {old new : Forest Item} (hl : Located place new) (ho : Distinct old)
    (hn : Distinct new) : Between place old new none [] [] := by
  refine ⟨hl, ho, hn, ?_, ?_, rfl⟩
  · simpa [map_key_rows] using nodup_keys ho
  · simpa [map_key_rows] using nodup_keys hn

/-! ## Each case of a comparison -/

/-- The expansion of a matched entry is kept for it alone. -/
theorem lend_matched {j : Item} {ns : Forest Item} {es : List (Path × Bool)}
    (hloc : Located j.path ns) (h : EntriesOf ns es) (b : Bool) :
    j.lend ([(j.path, b)] ++ es) = { j with expanded := b } ∧
      mapAll (Item.lend ([(j.path, b)] ++ es)) ns = mapAll (Item.lend es) ns := by
  constructor
  · rw [Item.lend_append, Item.lend_cons, if_pos rfl, Item.lend_nil]
    refine Item.lend_of_forall_ne fun e he => ?_
    obtain ⟨a, ha, hae⟩ := h e he
    rw [← hae]
    exact (path_ne_base hloc ha).symm
  · refine mapAll_congr fun a ha => ?_
    rw [Item.lend_append, Item.lend_cons, if_neg (path_ne_base hloc ha), Item.lend_nil]

/-- Changes that turn the rows below an entry into others, where the entry's siblings were put. -/
theorem foldl_applyTo_below {pre post : Forest Row} {r : Row} (hpre : ∀ s ∈ pre, s.key ≠ r.key)
    {cs : List Change} {old new : Forest Row}
    (h : ∀ roots, cs.foldl View.applyTo (put (place ++ [r.key]) old roots) =
      put (place ++ [r.key]) new roots) (roots : Forest Row) :
    cs.foldl View.applyTo (put place (pre ++ node r old :: post) roots) =
      put place (pre ++ node r new :: post) roots := by
  have below : ∀ c, put (place ++ [r.key]) c (put place (pre ++ node r [] :: post) roots) =
      put place (pre ++ node r c :: post) roots := fun c =>
    put_concat place (t := node r []) hpre c roots
  rw [← below, h, below]

theorem Revises.of_settles {o n : Rose Item} {d : Delta}
    (h : Settles n.value.path o.children n.children none d) :
    Revises o n (⟨o.value.updatesTo n.value, [(n.value.path, o.value.expanded)]⟩ ++ d) := by
  obtain ⟨i, os⟩ := o
  obtain ⟨j, ns⟩ := n
  simp only [value_node, children_node] at h ⊢
  constructor
  · have hself : EntriesOf [node j ns] [(j.path, i.expanded)] := by
      intro e he
      obtain rfl := List.mem_singleton.1 he
      exact ⟨j, List.mem_cons_self .., rfl⟩
    refine hself.append h.kept fun a ha => ?_
    rcases ha with ha | ha
    · exact ha
    · simp [valuesAll_cons, ha]
  · intro place pre post hk hloc hos hns hpre roots
    obtain ⟨hj, hloc, -⟩ := located_cons.1 hloc
    rw [← hj] at hloc
    have hij : i.key = j.key := hk
    obtain ⟨hentry, hbelow⟩ := lend_matched hloc h.kept i.expanded
    -- the updates of the entry itself
    have hupd : ∀ c ∈ i.updatesTo j,
        ∃ property value, c = .update (place ++ [i.row.key]) property value := by
      intro c hc
      obtain ⟨property, value, rfl⟩ := Item.mem_updatesTo hc
      exact ⟨property, value, by rw [hj, Item.key_row, hij]⟩
    have hrow : (i.updatesTo j).foldl (Row.receive (place ++ [i.row.key])) i.row =
        { j.row with expanded := i.expanded } := by
      rw [Item.key_row, hij, ← hj]
      exact Item.foldl_receive_updatesTo hij
    rw [Delta.changes_append, List.foldl_append, map_node,
      View.foldl_applyTo_put (fun s hs => hpre s hs) hupd, hrow]
    -- the changes below it
    obtain ⟨r, hr⟩ : ∃ r : Row, r = { j.row with expanded := i.expanded } := ⟨_, rfl⟩
    have hrk : r.key = j.key := by rw [hr]; rfl
    rw [← hr, foldl_applyTo_below (fun s hs => by rw [hrk, ← hij]; exact hpre s hs) fun roots => by
      have := h.foldl_applyTo (.whole hloc hos hns) roots
      simp only [List.nil_append, List.append_nil] at this
      rw [hrk, ← hj]
      exact this]
    rw [map_node, map_node, Delta.kept_append, hentry, hbelow, hr]
    rfl

/-- The rows of the old siblings left go. -/
theorem foldl_applyTo_leave {old : Forest Item} {pre post : Forest Row}
    (hold : ((pre ++ rows old ++ post).map Rose.key).Nodup) (roots : Forest Row) :
    (if old = [] then Delta.none else .just (.delete place (old.map Rose.key))).changes.foldl
        View.applyTo (put place (pre ++ rows old ++ post) roots) = put place (pre ++ post) roots := by
  have gone : ∀ s ∈ pre, ∀ t ∈ rows old, s.key ≠ t.key := by
    intro s hs t ht
    rw [List.append_assoc, List.map_append, List.nodup_append] at hold
    exact hold.2.2 _ (List.mem_map_of_mem hs) _
      (List.mem_map_of_mem (List.mem_append_left _ ht))
  split
  · rename_i h
    rw [h, rows_nil, List.append_nil]; rfl
  · exact View.applyTo_delete old gone roots

/-- The rows of the old siblings left go, and those of the new ones come. -/
theorem foldl_applyTo_exchange {old new : Forest Item} {pre post : Forest Row}
    (hold : ((pre ++ rows old ++ post).map Rose.key).Nodup)
    (hnew : ((pre ++ rows new ++ post).map Rose.key).Nodup) (roots : Forest Row) :
    (exchange place old new (post.head?.map Rose.key)).changes.foldl View.applyTo
        (put place (pre ++ rows old ++ post) roots) =
      put place (pre ++ rows new ++ post) roots := by
  have bare : ((pre ++ post).map Rose.key).Nodup := by
    refine List.Nodup.sublist ?_ hnew
    rw [List.append_assoc]
    exact (List.Sublist.append_left (List.sublist_append_right ..) _).map _
  unfold exchange
  rw [Delta.changes_append, List.foldl_append, foldl_applyTo_leave hold]
  split
  · rename_i h
    rw [h, rows_nil, List.append_nil]; rfl
  · exact View.applyTo_insert new bare roots

@[simp] theorem kept_exchange (place : Path) (old new : Forest Item) (next : Option Key) :
    (exchange place old new next).kept = [] := by
  unfold exchange
  split <;> split <;> rfl

theorem mapAll_lend_nil (ts : Forest Item) : mapAll (Item.lend []) ts = ts :=
  mapAll_eq_self fun _ _ => rfl

theorem Settles.exchange (place : Path) (old new : Forest Item) (next : Option Key) :
    Settles place old new next (exchange place old new next) := by
  refine ⟨?_, fun h roots => ?_⟩
  · rw [kept_exchange]
    exact fun _ he => absurd he List.not_mem_nil
  · rw [kept_exchange, mapAll_lend_nil, h.next_eq]
    exact foldl_applyTo_exchange h.old_keys h.new_keys roots

/-- A new sibling goes in front of the old ones left. -/
theorem Between.applyTo_fresh {o : Rose Item} {os new : Forest Item} {pre post : Forest Row}
    (h : Between place (o :: os) new next pre post) (n : Rose Item) (roots : Forest Row) :
    View.applyTo (put place (pre ++ rows (o :: os) ++ post) roots)
        (.insert place (some o.key) [n]) =
      put place (pre ++ rows [n] ++ rows (o :: os) ++ post) roots := by
  have hkeys := h.old_keys
  rw [List.append_assoc] at hkeys
  have hinsert := View.applyTo_insert (p := place) [n] hkeys roots
  have hhead : (rows (o :: os) ++ post).head?.map Rose.key = some o.key :=
    congrArg some (key_map_row o)
  rwa [hhead, ← List.append_assoc, ← List.append_assoc] at hinsert

theorem Settles.fresh {o n : Rose Item} {os ns : Forest Item} (hn : ∀ s ∈ o :: os, s.key ≠ n.key) :
    Settles place (o :: os) (n :: ns) next
      (.just (.insert place (some o.key) [n]) ++ Outline.exchange place (o :: os) ns next) := by
  have hkept : (Delta.just (.insert place (some o.key) [n]) ++
      Outline.exchange place (o :: os) ns next).kept = [] := by
    rw [Delta.kept_append, kept_exchange]; rfl
  refine ⟨?_, fun {pre post} h roots => ?_⟩
  · rw [hkept]
    exact fun _ he => absurd he List.not_mem_nil
  · obtain ⟨hold, hnew⟩ := h.fresh hn
    rw [hkept, mapAll_lend_nil, Delta.changes_append, List.foldl_append, h.next_eq]
    show _ = put place (pre ++ (rows [n] ++ rows ns) ++ post) roots
    rw [← List.append_assoc, ← foldl_applyTo_exchange hold hnew roots, ← h.applyTo_fresh]
    rfl

/-- The changes for a matched entry, and its passing of siblings, bring its row where it is to
stand. -/
theorem Revises.foldl_applyTo_pass {l r : Forest Item} {o n : Rose Item} {d : Delta}
    {before : Option Key} {pre post : Forest Row} (hd : Revises o n d) (passed : Forest Item)
    (us vs : Forest Row) (hk : o.key = n.key) (hloc : Located place [n])
    (ho : Distinct o.children) (hn : Distinct n.children)
    (hkeys : ((pre ++ rows (l ++ o :: r) ++ post).map Rose.key).Nodup)
    (hlr : pre ++ rows (l ++ r) ++ post = us ++ vs) (hp : passed = [] → pre ++ rows l = us)
    (hb : passed ≠ [] → before = vs.head?.map Rose.key) (roots : Forest Row) :
    (d ++ pass place passed o.key before).changes.foldl View.applyTo
        (put place (pre ++ rows (l ++ o :: r) ++ post) roots) =
      put place (us ++ (n.map (Item.lend d.kept)).map Item.row :: vs) roots := by
  have hstand : pre ++ rows (l ++ o :: r) ++ post =
      (pre ++ rows l) ++ o.map Item.row :: (rows r ++ post) := by
    simp [rows_append, rows_cons]
  have hothers : (pre ++ rows l) ++ (rows r ++ post) = us ++ vs := by
    rw [← hlr]
    simp [rows_append]
  rw [hstand] at hkeys ⊢
  have hpre : ∀ s ∈ pre ++ rows l, s.key ≠ o.key := by
    intro s hs
    rw [List.map_append, List.nodup_append] at hkeys
    rw [← key_map_row o]
    exact hkeys.2.2 _ (List.mem_map_of_mem hs) _ (List.mem_cons_self ..)
  obtain ⟨t, ht⟩ : ∃ t, t = (n.map (Item.lend d.kept)).map Item.row := ⟨_, rfl⟩
  have htk : t.key = o.key := by rw [ht, key_lent, hk]
  have hkeys' : ((pre ++ rows l ++ t :: (rows r ++ post)).map Rose.key).Nodup := by
    rw [List.map_append, List.map_cons, htk, ← key_map_row o, ← List.map_cons, ← List.map_append]
    exact hkeys
  rw [Delta.changes_append, List.foldl_append, hd.foldl_applyTo hk hloc ho hn hpre, ← ht, ← htk]
  exact Outline.foldl_applyTo_pass hkeys' hothers hp hb roots

section

variable {l r ns : Forest Item} {o n : Rose Item} {d e : Delta} {pre post : Forest Row}

theorem Revises.foldl_applyTo_front (hd : Revises o n d) (hk : o.key = n.key)
    (h : Between place (l ++ o :: r) (n :: ns) next pre post) (roots : Forest Row) :
    (d ++ pass place l o.key (l.head?.map Rose.key)).changes.foldl View.applyTo
        (put place (pre ++ rows (l ++ o :: r) ++ post) roots) =
      put place (pre ++ (n.map (Item.lend d.kept)).map Item.row :: (rows (l ++ r) ++ post))
        roots := by
  obtain ⟨hloc, ho, hn⟩ := h.matched []
  -- siblings that are passed are still left, and the first of them is the first row behind
  have passed : l ≠ [] →
      l.head?.map Rose.key = (rows (l ++ r) ++ post).head?.map Rose.key := by
    intro hl
    obtain ⟨s, l, rfl⟩ := List.exists_cons_of_ne_nil hl
    exact congrArg some (key_map_row s).symm
  exact hd.foldl_applyTo_pass l pre (rows (l ++ r) ++ post) hk hloc ho hn h.old_keys
    (List.append_assoc ..) (by rintro rfl; exact List.append_nil _) passed roots

theorem Revises.foldl_applyTo_back (hd : Revises o n d) (hk : o.key = n.key)
    (h : Between place (l ++ o :: r) (ns ++ [n]) next pre post) (roots : Forest Row) :
    (d ++ pass place r o.key next).changes.foldl View.applyTo
        (put place (pre ++ rows (l ++ o :: r) ++ post) roots) =
      put place (pre ++ rows (l ++ r) ++ (n.map (Item.lend d.kept)).map Item.row :: post)
        roots := by
  obtain ⟨hloc, ho, hn⟩ := h.matched ns
  exact hd.foldl_applyTo_pass r (pre ++ rows (l ++ r)) post hk hloc ho hn h.old_keys rfl
    (by rintro rfl; rw [List.append_nil]) (fun _ => h.next_eq) roots

theorem Settles.front (hk : o.key = n.key) (hd : Revises o n d)
    (he : Settles place (l ++ r) ns next e) :
    Settles place (l ++ o :: r) (n :: ns) next
      (d ++ pass place l o.key (l.head?.map Rose.key) ++ e) := by
  have hkept : (d ++ pass place l o.key (l.head?.map Rose.key) ++ e).kept = d.kept ++ e.kept := by
    simp
  refine ⟨?_, fun {pre post} h roots => ?_⟩
  · rw [hkept]
    exact hd.kept.append he.kept fun a ha => by
      rw [show n :: ns = [n] ++ ns from rfl, valuesAll_append]
      exact List.mem_append.2 ha
  · obtain ⟨hnloc, hnsloc⟩ := located_head_tail.1 h.located
    obtain ⟨hne, -⟩ := distinct_cons.1 h.new_distinct
    obtain ⟨t, ht⟩ : ∃ t, t = (n.map (Item.lend d.kept)).map Item.row := ⟨_, rfl⟩
    have htk : t.key = n.key := by rw [ht, key_lent]
    have settled := he.foldl_applyTo (h.front hk htk) roots
    obtain ⟨hlend, hlends⟩ := mapAll_lend_append hnloc hnsloc
      (by simpa using fun s hs => (hne s hs).symm) hd.kept he.kept
    have hrows : rows (mapAll (Item.lend (d.kept ++ e.kept)) (n :: ns)) =
        t :: rows (mapAll (Item.lend e.kept) ns) := by
      rw [show n :: ns = [n] ++ ns from rfl, mapAll_append, hlend, hlends, ht]; rfl
    rw [hkept, hrows, Delta.changes_append, List.foldl_append, hd.foldl_applyTo_front hk h, ← ht]
    simpa using settled

theorem Settles.back (hk : o.key = n.key) (hd : Revises o n d)
    (he : Settles place (l ++ r) ns (some n.key) e) :
    Settles place (l ++ o :: r) (ns ++ [n]) next (d ++ pass place r o.key next ++ e) := by
  have hkept : (d ++ pass place r o.key next ++ e).kept = d.kept ++ e.kept := by simp
  refine ⟨?_, fun {pre post} h roots => ?_⟩
  · rw [hkept]
    exact hd.kept.append he.kept fun a ha => by
      rw [valuesAll_append]
      exact List.mem_append.2 ha.symm
  · obtain ⟨hnsloc, hnloc⟩ := located_append.1 h.located
    obtain ⟨-, -, hne⟩ := distinct_append.1 h.new_distinct
    obtain ⟨t, ht⟩ : ∃ t, t = (n.map (Item.lend d.kept)).map Item.row := ⟨_, rfl⟩
    have htk : t.key = n.key := by rw [ht, key_lent]
    have settled := he.foldl_applyTo (h.back hk htk) roots
    obtain ⟨hlend, hlends⟩ := mapAll_lend_append hnloc hnsloc
      (fun s hs t ht => by rw [List.mem_singleton.1 hs]; exact (hne t ht n (List.mem_singleton_self n)).symm)
      hd.kept he.kept
    have hrows : rows (mapAll (Item.lend (d.kept ++ e.kept)) (ns ++ [n])) =
        rows (mapAll (Item.lend e.kept) ns) ++ [t] := by
      rw [mapAll_append, hlend, hlends, rows_append, ht]; rfl
    rw [hkept, hrows, Delta.changes_append, List.foldl_append, hd.foldl_applyTo_back hk h, ← ht]
    simpa using settled

end

theorem settles_reconcile (place : Path) (old new : Forest Item) (next : Option Key) :
    Settles place old new next (reconcile place old new next) :=
  reconcile_induct (R := Revises) (P := Settles) (fun _ _ _ => Revises.of_settles)
    (fun place old new next _ => Settles.exchange place old new next)
    (fun _ _ _ _ _ _ _ _ _ => Settles.front) (fun _ _ _ _ _ _ _ _ _ _ => Settles.back)
    (fun _ _ _ _ _ _ hn _ => Settles.fresh hn) place old new next

/-! ## Whole outlines -/

/-- The changes from one outline to another turn the rows of the one into those of the other, with
the expansion of matched entries lent to it. -/
theorem foldl_applyTo_changesTo {old new : Outline} (ho : WellKeyed old) (hn : WellKeyed new) :
    (old.changesTo new).changes.foldl View.applyTo (rows old) =
      rows (lendExpansion (old.changesTo new).expansion new) := by
  have := (settles_reconcile [] old new none).foldl_applyTo
    (.whole hn.located ho.distinct hn.distinct) []
  simp only [List.nil_append, List.append_nil, put_nil] at this
  rw [lendExpansion_eq hn, changesTo, this]
  congr 1
  exact mapAll_congr fun i _ => (Expansion.lend_ofEntries _ i).symm

/-- A display of one outline that carries out the changes to another is a display of the other, in
which matched entries are expanded as they were. -/
theorem applyAll_changesTo {old new : Forest Item} (ho : Distinct old) (hn : Distinct new) :
    (View.ofForest (ofForest old)).applyAll ((ofForest old).changesTo (ofForest new)).changes =
      View.ofForest (lendExpansion ((ofForest old).changesTo (ofForest new)).expansion
        (ofForest new)) := by
  show View.mk (List.foldl _ (rows _) _) none (if _ then none else none) = View.mk (rows _) none none
  rw [foldl_applyTo_changesTo (.ofForest ho) (.ofForest hn), ite_self]

/-- Two entries change places, one of them is expanded, and the other one gets a new entry below. -/
theorem applyAll_changesTo_swapped :
    let entry (name : String) : Item := .fresh ⟨.function, name⟩ "" (.ofLines 0 1) (.ofLines 0 0)
    let old := [node { entry "a" with expanded := true } [node (entry "b") []], node (entry "b") []]
    let new := [node (entry "b") [node (entry "c") []], node (entry "a") [node (entry "b") []]]
    Distinct old ∧ Distinct new ∧
      (View.ofForest (ofForest old)).applyAll ((ofForest old).changesTo (ofForest new)).changes =
        View.ofForest (lendExpansion ((ofForest old).changesTo (ofForest new)).expansion
          (ofForest new)) :=
  ⟨by decide, by decide, applyAll_changesTo (by decide) (by decide)⟩

end Outline

end SymbolOutline
