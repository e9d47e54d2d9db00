import SymbolOutline.Proofs.Reconcile

/-
Changes where siblings share keys (`paths_applyAll_changesTo`).

A change names entries by key, and a display takes the first sibling that has the key. Here a key may
be taken for any of the siblings that have it, so that a change has several readings. Only the
arrangement of the keys counts. The changes from one outline to another then have a reading that leads
from the one to the other, whatever siblings share keys; which of them a key was meant for is not
said, and the first may be the wrong one.
-/

namespace SymbolOutline

instance : Keyed Key := ⟨id⟩

namespace Forest

open Rose

/-! ## Shapes -/

section

variable {α : Type} [Keyed α]

/-- How the keys of a forest are arranged. -/
def shape (ts : Forest α) : Forest Key := mapAll Keyed.key ts

@[simp] theorem shape_nil : shape ([] : Forest α) = [] := rfl

theorem shape_cons (t : Rose α) (ts : Forest α) : shape (t :: ts) = t.map Keyed.key :: shape ts := rfl

theorem shape_append (ss ts : Forest α) : shape (ss ++ ts) = shape ss ++ shape ts := mapAll_append ..

@[simp] theorem key_map_key (t : Rose α) : (t.map Keyed.key).key = t.key := by cases t; rfl

theorem paths_shape (ts : Forest α) : paths (shape ts) = paths ts := by
  have pathsIn_shape : ∀ base, pathsIn base (shape ts) = pathsIn base ts := by
    induction ts using induct_forest with
    | nil => exact fun _ => rfl
    | cons a cs ts ihc ih =>
      intro base
      rw [shape_cons, map_node, pathsIn, pathsOf, pathsIn, pathsOf, ih]
      exact congrArg (fun ps => _ :: ps ++ _) (ihc _)
  exact pathsIn_shape []

end

/-! ## Any of the siblings with a key -/

/-- The siblings with a key, with those before and those behind. -/
def splits (k : Key) : Forest Key → List (Forest Key × Rose Key × Forest Key)
  | [] => []
  | t :: ts =>
    (if t.key = k then [([], t, ts)] else []) ++
      (splits k ts).map fun (pre, s, post) => (t :: pre, s, post)

/-- The outcomes for all siblings with a key, and others where there is none. -/
def choices {β : Type} (k : Key) (ts : Forest Key) (missing : List β)
    (f : Forest Key → Rose Key → Forest Key → List β) : List β :=
  match splits k ts with
  | [] => missing
  | cs => cs.flatMap fun (pre, t, post) => f pre t post

/-- The ways to put trees in front of a tree with a key, or at the end where there is none. -/
def insertions (before : Option Key) (new ts : Forest Key) : List (Forest Key) :=
  match before with
  | none => [ts ++ new]
  | some k => choices k ts [ts ++ new] fun pre t post => [pre ++ new ++ t :: post]

/-- The ways to remove trees with given keys, one after the other. -/
def removals : List Key → Forest Key → List (Forest Key)
  | [], ts => [ts]
  | k :: ks, ts => choices k ts (removals ks ts) fun pre _ post => removals ks (pre ++ post)

/-- The ways to take out trees with given keys: the trees taken out and the trees left. -/
def takings : List Key → Forest Key → List (Forest Key × Forest Key)
  | [], ts => [([], ts)]
  | k :: ks, ts =>
    choices k ts (takings ks ts) fun pre t post =>
      (takings ks (pre ++ post)).map fun (taken, left) => (t :: taken, left)

/-- The ways to do something in a forest that a path leads into. Where no tree is, nothing changes. -/
def inside (f : Forest Key → List (Forest Key)) : Path → Forest Key → List (Forest Key)
  | [], ts => f ts
  | k :: p, ts =>
    choices k ts [ts] fun pre t post =>
      (inside f p t.children).map fun cs => pre ++ .node t.value cs :: post

end Forest

namespace Change

open Forest

/-- What a change can make of a shape. -/
def readings : Change → Forest Key → List (Forest Key)
  | update .. => fun ts => [ts]
  | insert p before entries => inside (insertions before (shape entries)) p
  | delete p keys => inside (removals keys) p
  | move p keys before =>
    inside (fun ts => (takings keys ts).flatMap fun (taken, left) => insertions before taken left) p

/-- What changes, carried out in order, can make of a shape. -/
def readingsAll : List Change → Forest Key → List (Forest Key)
  | [], ts => [ts]
  | c :: cs, ts => (c.readings ts).flatMap (readingsAll cs)

end Change

namespace Forest

open Rose

variable {k : Key} {pre post ts : Forest Key} {t : Rose Key}

theorem mem_splits : (pre, t, post) ∈ splits k ts ↔ ts = pre ++ t :: post ∧ t.key = k := by
  induction ts generalizing pre with
  | nil => simp [splits]
  | cons s ts ih =>
    rw [splits, List.mem_append, List.mem_map]
    constructor
    · rintro (h | ⟨⟨pre', t', post'⟩, h, he⟩)
      · split at h
        · obtain ⟨rfl, rfl, rfl⟩ : pre = [] ∧ t = s ∧ post = ts := by simpa using h
          exact ⟨rfl, ‹_›⟩
        · cases h
      · obtain ⟨rfl, rfl, rfl⟩ : s :: pre' = pre ∧ t' = t ∧ post' = post := by simpa using he
        obtain ⟨rfl, hk⟩ := ih.1 h
        exact ⟨rfl, hk⟩
    · rintro ⟨h, hk⟩
      cases pre with
      | nil =>
        obtain ⟨rfl, rfl⟩ := List.cons.inj h
        rw [if_pos hk]
        exact .inl (List.mem_singleton_self _)
      | cons r pre =>
        obtain ⟨rfl, rfl⟩ := List.cons.inj h
        exact .inr ⟨_, ih.2 ⟨rfl, hk⟩, rfl⟩

theorem mem_choices {β : Type} {missing : List β} {f : Forest Key → Rose Key → Forest Key → List β}
    {b : β} (h : b ∈ f pre t post) : b ∈ choices t.key (pre ++ t :: post) missing f := by
  have hmem : (pre, t, post) ∈ splits t.key (pre ++ t :: post) := mem_splits.2 ⟨rfl, rfl⟩
  unfold choices
  split
  · next hnil => rw [hnil] at hmem; cases hmem
  · exact List.mem_flatMap.2 ⟨_, hmem, h⟩

theorem choices_of_forall_ne {β : Type} {missing : List β}
    {f : Forest Key → Rose Key → Forest Key → List β} (h : ∀ t ∈ ts, t.key ≠ k) :
    choices k ts missing f = missing := by
  have : splits k ts = [] := by
    refine List.eq_nil_iff_forall_not_mem.2 ?_
    rintro ⟨pre, t, post⟩ hmem
    obtain ⟨rfl, hk⟩ := mem_splits.1 hmem
    exact h t (by simp) hk
  rw [choices, this]

/-! ## Places -/

/-- What is around a forest, from the roots inwards: the siblings before an entry, its key, and the
siblings behind. -/
abbrev Frames := List (Forest Key × Key × Forest Key)

/-- A forest with what is around it. -/
def fill : Frames → Forest Key → Forest Key
  | [], cs => cs
  | (pre, k, post) :: fs, cs => pre ++ .node k (fill fs cs) :: post

/-- The path through what is around a forest. -/
def Frames.path (fs : Frames) : Path := fs.map fun f => f.2.1

theorem fill_concat (fs : Frames) (pre post : Forest Key) (k : Key) (cs : Forest Key) :
    fill (fs ++ [(pre, k, post)]) cs = fill fs (pre ++ .node k cs :: post) := by
  induction fs with
  | nil => rfl
  | cons f fs ih => rw [List.cons_append, fill, ih, fill]

theorem mem_inside {f : Forest Key → List (Forest Key)} {cs cs' : Forest Key} (h : cs' ∈ f cs)
    (fs : Frames) : fill fs cs' ∈ inside f fs.path (fill fs cs) := by
  induction fs with
  | nil => exact h
  | cons e fs ih =>
    obtain ⟨pre, k, post⟩ := e
    exact mem_choices (t := .node k (fill fs cs)) (List.mem_map_of_mem ih)

/-! ## A reading where the entries meant are known -/

theorem mem_insertions (new pre post : Forest Key) :
    pre ++ new ++ post ∈ insertions (post.head?.map Rose.key) new (pre ++ post) := by
  cases post with
  | nil => simp [insertions]
  | cons t post =>
    rw [List.head?_cons, Option.map_some, insertions]
    exact mem_choices (by simp)

theorem mem_removals (pre mid post : Forest Key) :
    pre ++ post ∈ removals (mid.map Rose.key) (pre ++ mid ++ post) := by
  induction mid with
  | nil => simp [removals]
  | cons t mid ih =>
    rw [List.map_cons, removals, List.append_assoc, List.cons_append]
    rw [List.append_assoc] at ih
    exact mem_choices ih

theorem mem_takings (pre post : Forest Key) (t : Rose Key) :
    ([t], pre ++ post) ∈ takings [t.key] (pre ++ t :: post) :=
  mem_choices (by simp [takings])

end Forest

namespace Outline

open Forest Rose Change

theorem mem_readingsAll_append {cs ds : List Change} {ts us vs : Forest Key}
    (hc : us ∈ readingsAll cs ts) (hd : vs ∈ readingsAll ds us) : vs ∈ readingsAll (cs ++ ds) ts := by
  induction cs generalizing ts with
  | nil =>
    obtain rfl := List.mem_singleton.1 hc
    exact hd
  | cons c cs ih =>
    obtain ⟨ss, hss, hus⟩ := List.mem_flatMap.1 hc
    exact List.mem_flatMap.2 ⟨ss, hss, ih hus⟩

/-- Some reading of changes turns one forest at a place into another. -/
def Turns (place : Path) (cs : List Change) (ts us : Forest Key) : Prop :=
  ∀ fs : Frames, fs.path = place → fill fs us ∈ readingsAll cs (fill fs ts)

namespace Turns

variable {place : Path} {cs ds : List Change} {pre post ts us vs : Forest Key}

theorem refl : Turns place [] ts ts := fun _ _ => List.mem_singleton_self _

theorem append (hc : Turns place cs ts us) (hd : Turns place ds us vs) :
    Turns place (cs ++ ds) ts vs :=
  fun fs hfs => mem_readingsAll_append (hc fs hfs) (hd fs hfs)

theorem single {c : Change} {f : Forest Key → List (Forest Key)} (hc : c.readings = inside f place)
    (h : us ∈ f ts) : Turns place [c] ts us := by
  rintro fs rfl
  refine List.mem_flatMap.2 ⟨fill fs us, ?_, List.mem_singleton_self _⟩
  rw [hc]
  exact mem_inside h fs

/-- What changes turn below an entry. -/
theorem below {k : Key} (h : Turns (place ++ [k]) cs ts us) (pre post : Forest Key) :
    Turns place cs (pre ++ .node k ts :: post) (pre ++ .node k us :: post) := by
  rintro fs rfl
  rw [← fill_concat, ← fill_concat]
  exact h _ (by simp [Frames.path])

theorem updates (h : ∀ c ∈ cs, ∃ p property value, c = .update p property value) (ts : Forest Key) :
    Turns place cs ts ts := by
  intro fs _
  induction cs with
  | nil => exact List.mem_singleton_self _
  | cons c cs ih =>
    obtain ⟨p, property, value, rfl⟩ := h _ (List.mem_cons_self ..)
    exact List.mem_flatMap.2
      ⟨_, List.mem_singleton_self _, ih fun c hc => h c (List.mem_cons_of_mem _ hc)⟩

theorem insert (place : Path) (new : Forest Item) (pre post : Forest Key) :
    Turns place [.insert place (post.head?.map Rose.key) new] (pre ++ post)
      (pre ++ shape new ++ post) :=
  single rfl (mem_insertions (shape new) pre post)

theorem delete (place : Path) (old : Forest Item) (pre post : Forest Key) :
    Turns place [.delete place (old.map Rose.key)] (pre ++ shape old ++ post) (pre ++ post) := by
  have hkeys : old.map Rose.key = (shape old).map Rose.key := by
    rw [shape, mapAll_eq_map, List.map_map]
    exact List.map_congr_left fun t _ => (key_map_key t).symm
  rw [hkeys]
  exact single rfl (mem_removals pre (shape old) post)

/-- An entry passes its siblings. -/
theorem pass {l r : Forest Key} {t : Rose Key} {passed : Forest Item} {before : Option Key}
    (hlr : l ++ r = pre ++ post) (hp : passed = [] → l = pre)
    (hb : passed ≠ [] → before = post.head?.map Rose.key) :
    Turns place (Outline.pass place passed t.key before).changes (l ++ t :: r) (pre ++ t :: post) := by
  unfold Outline.pass
  split
  · next h =>
    obtain rfl := hp h
    rw [List.append_cancel_left hlr]
    exact refl
  · next h =>
    rw [hb h]
    refine single rfl (List.mem_flatMap.2 ⟨_, mem_takings l r t, ?_⟩)
    rw [hlr]
    have := mem_insertions [t] pre post
    rwa [List.append_assoc] at this

theorem exchange (place : Path) (old new : Forest Item) (pre post : Forest Key) :
    Turns place (Outline.exchange place old new (post.head?.map Rose.key)).changes
      (pre ++ shape old ++ post) (pre ++ shape new ++ post) := by
  have hold : Turns place
      (if old = [] then Delta.none else .just (.delete place (old.map Rose.key))).changes
      (pre ++ shape old ++ post) (pre ++ post) := by
    split
    · next h =>
      rw [h, shape_nil, List.append_nil]
      exact refl
    · exact delete place old pre post
  have hnew : Turns place
      (if new = [] then Delta.none
        else .just (.insert place (post.head?.map Rose.key) new)).changes
      (pre ++ post) (pre ++ shape new ++ post) := by
    split
    · next h =>
      rw [h, shape_nil, List.append_nil]
      exact refl
    · exact insert place new pre post
  exact hold.append hnew

end Turns

/-- The changes at a place can be read so that the old siblings left turn into the new ones. -/
theorem turns_reconcile (place : Path) (old new : Forest Item) (next : Option Key) :
    Located place new → ∀ pre post : Forest Key, next = post.head?.map Rose.key →
      Turns place (reconcile place old new next).changes (pre ++ shape old ++ post)
        (pre ++ shape new ++ post) := by
  refine reconcile_induct
    (R := fun o n d => ∀ place, o.key = n.key → Located place [n] → ∀ pre post,
      Turns place d.changes (pre ++ o.map Keyed.key :: post) (pre ++ n.map Keyed.key :: post))
    (P := fun place old new next d => Located place new → ∀ pre post : Forest Key,
      next = post.head?.map Rose.key →
        Turns place d.changes (pre ++ shape old ++ post) (pre ++ shape new ++ post))
    ?_ ?_ ?_ ?_ ?_ place old new next
  · -- an entry and what is below it
    rintro ⟨i, os⟩ ⟨j, ns⟩ d h place hk hloc pre post
    obtain ⟨hj, hns, -⟩ := located_cons.1 hloc
    have hupdates : ∀ c ∈ i.updatesTo j, ∃ p property value, c = .update p property value :=
      fun c hc => ⟨_, Item.mem_updatesTo hc⟩
    have hbelow := h (hj ▸ hns) [] [] rfl
    simp only [List.nil_append, List.append_nil] at hbelow
    have hij : i.key = j.key := hk
    show Turns place (i.updatesTo j ++ d.changes) (pre ++ .node i.key (shape os) :: post)
      (pre ++ .node j.key (shape ns) :: post)
    rw [hij]
    exact (Turns.updates hupdates _).append (Turns.below (hj ▸ hbelow) pre post)
  · -- nothing left on one side
    rintro place old new next - - pre post rfl
    exact .exchange place old new pre post
  · -- a match at the front
    rintro place l o r n ns next d e hk hd he hloc pre post hnext
    obtain ⟨hn, hns⟩ := located_head_tail.1 hloc
    have hpass : Turns place (pass place l o.key (l.head?.map Rose.key)).changes
        ((pre ++ shape l) ++ n.map Keyed.key :: (shape r ++ post))
        (pre ++ n.map Keyed.key :: (shape (l ++ r) ++ post)) := by
      rw [hk, ← key_map_key n]
      refine .pass (by simp [shape_append]) (fun h => by simp [h]) fun h => ?_
      obtain ⟨s, l, rfl⟩ := List.exists_cons_of_ne_nil h
      exact congrArg some (key_map_key s).symm
    have hrest := he hns (pre ++ [n.map Keyed.key]) post hnext
    have := ((hd place hk hn (pre ++ shape l) (shape r ++ post)).append hpass).append
      (by simpa using hrest)
    simpa [shape_append, shape_cons] using this
  · -- a match at the back
    rintro place l o r n ns next d e hlr hk hd he hloc pre post hnext
    obtain ⟨hns, hn⟩ := located_append.1 hloc
    have hpass : Turns place (pass place r o.key next).changes
        ((pre ++ shape l) ++ n.map Keyed.key :: (shape r ++ post))
        ((pre ++ shape (l ++ r)) ++ n.map Keyed.key :: post) := by
      rw [hk, ← key_map_key n]
      exact .pass (by simp [shape_append]) (fun h => by simp [h]) fun _ => hnext
    have hrest := he hns pre (n.map Keyed.key :: post) (congrArg some (key_map_key n).symm)
    have := ((hd place hk hn (pre ++ shape l) (shape r ++ post)).append hpass).append
      (by simpa using hrest)
    simpa [shape_append, shape_cons] using this
  · -- a new entry that ends the comparison
    rintro place o os n ns next - - - pre post rfl
    have hinsert := Turns.insert place [n] pre (shape (o :: os) ++ post)
    have hrest := Turns.exchange place (o :: os) ns (pre ++ shape [n]) post
    have hhead : (shape (o :: os) ++ post).head?.map Rose.key = some o.key :=
      congrArg some (key_map_key o)
    rw [hhead] at hinsert
    have := hinsert.append (by simpa using hrest)
    simpa [shape_append, shape_cons, Delta.just] using this

end Outline

/-! ## The first of the siblings with a key -/

namespace Forest

open Rose

section

variable {α : Type} [Keyed α] {k : Key}

theorem key_ne_shape {ts : Forest α} (h : ∀ t ∈ ts, t.key ≠ k) : ∀ t ∈ shape ts, t.key ≠ k := by
  intro t ht
  rw [shape, mapAll_eq_map] at ht
  obtain ⟨s, hs, rfl⟩ := List.mem_map.1 ht
  rw [key_map_key]
  exact h s hs

/-- The first sibling with a key is one of the choices, if there is any. -/
theorem mem_choices_shape {β : Type} {ts : Forest α} {missing : List β}
    {f : Forest Key → Rose Key → Forest Key → List β} {b : β}
    (hmissing : (∀ t ∈ ts, t.key ≠ k) → b ∈ missing)
    (hfirst : ∀ pre t post, ts = pre ++ t :: post → t.key = k → (∀ s ∈ pre, s.key ≠ k) →
      b ∈ f (shape pre) (t.map Keyed.key) (shape post)) :
    b ∈ choices k (shape ts) missing f := by
  cases h : child? ts k with
  | none =>
    rw [choices_of_forall_ne (key_ne_shape (child?_eq_none h))]
    exact hmissing (child?_eq_none h)
  | some t =>
    obtain ⟨hk, pre, post, hts, hpre⟩ := child?_eq_some h
    rw [hts, shape_append, shape_cons, ← hk, ← key_map_key]
    exact mem_choices (hfirst pre t post hts hk hpre)

theorem shape_insertBefore_mem (before : Option Key) (new ts : Forest α) :
    shape (insertBefore before new ts) ∈ insertions before (shape new) (shape ts) := by
  cases before with
  | none => simp [insertBefore, insertions, shape_append]
  | some k =>
    rw [insertions]
    refine mem_choices_shape (fun h => ?_) ?_
    · have hall : ∀ t ∈ ts, decide (t.key ≠ k) = true := by simpa using h
      have : insertBefore (some k) new ts = ts ++ new := by
        rw [← List.append_nil ts, insertBefore, List.takeWhile_append_of_pos hall,
          List.dropWhile_append_of_pos hall]
        simp
      rw [this, shape_append]
      exact List.mem_singleton_self _
    · rintro pre t post rfl rfl hpre
      rw [insertBefore_append new hpre]
      simp [shape_append, shape_cons]

theorem shape_foldl_removeChild_mem (ks : List Key) (ts : Forest α) :
    shape (ks.foldl (fun ts k => removeChild k ts) ts) ∈ removals ks (shape ts) := by
  induction ks generalizing ts with
  | nil => exact List.mem_singleton_self _
  | cons k ks ih =>
    rw [List.foldl_cons, removals]
    refine mem_choices_shape (fun h => ?_) ?_
    · have : removeChild k ts = ts := List.eraseP_of_forall_not (by simpa using h)
      rw [this]
      exact ih ts
    · rintro pre t post rfl rfl hpre
      rw [removeChild_append hpre, ← shape_append]
      exact ih _

theorem shape_takeOut_mem (ks : List Key) (ts : Forest α) :
    (shape (takeOut ks ts).1, shape (takeOut ks ts).2) ∈ takings ks (shape ts) := by
  induction ks generalizing ts with
  | nil => exact List.mem_singleton_self _
  | cons k ks ih =>
    rw [takings]
    refine mem_choices_shape (fun h => ?_) ?_
    · have : child? ts k = none := List.find?_eq_none.2 (by simpa using h)
      rw [takeOut, this]
      exact ih ts
    · rintro pre t post rfl rfl hpre
      rw [takeOut, child?_append hpre]
      simp only
      rw [removeChild_append hpre, ← shape_append]
      exact List.mem_map_of_mem (ih _)

theorem shape_modifyContainer_mem {f : Forest α → Forest α} {g : Forest Key → List (Forest Key)}
    (h : ∀ ts, shape (f ts) ∈ g (shape ts)) (p : Path) (ts : Forest α) :
    shape (modifyContainer f p ts) ∈ inside g p (shape ts) := by
  induction p generalizing ts with
  | nil => exact h ts
  | cons k p ih =>
    rw [modifyContainer, inside]
    refine mem_choices_shape (fun h => ?_) ?_
    · rw [modifyChild_eq_self _ h]
      exact List.mem_singleton_self _
    · rintro pre ⟨a, cs⟩ post rfl rfl hpre
      rw [modifyChild_append _ hpre, shape_append, shape_cons]
      exact List.mem_map_of_mem (ih cs)

end

end Forest

namespace View

open Forest Rose Change

theorem shape_rows (ts : Forest Item) : shape (rows ts) = shape ts := by
  rw [shape, rows, mapAll_mapAll]
  rfl

/-- A display takes a change in one of its readings. -/
theorem shape_applyTo_mem (roots : Forest Row) (c : Change) :
    shape (applyTo roots c) ∈ c.readings (shape roots) := by
  cases c with
  | update p property value =>
    have : shape (applyTo roots (.update p property value)) = shape roots :=
      mapAll_modify (fun r => Row.key_set r property value) p roots
    rw [this]
    exact List.mem_singleton_self _
  | insert p before entries =>
    refine shape_modifyContainer_mem (fun ts => ?_) p roots
    rw [← shape_rows]
    exact shape_insertBefore_mem before (rows entries) ts
  | delete p keys => exact shape_modifyContainer_mem (shape_foldl_removeChild_mem keys) p roots
  | move p keys before =>
    refine shape_modifyContainer_mem (fun ts => ?_) p roots
    exact List.mem_flatMap.2 ⟨_, shape_takeOut_mem keys ts, shape_insertBefore_mem ..⟩

theorem shape_foldl_applyTo_mem (cs : List Change) (roots : Forest Row) :
    shape (cs.foldl applyTo roots) ∈ readingsAll cs (shape roots) := by
  induction cs generalizing roots with
  | nil => exact List.mem_singleton_self _
  | cons c cs ih => exact List.mem_flatMap.2 ⟨_, shape_applyTo_mem roots c, ih _⟩

end View

namespace Outline

open Forest Rose Change View

/-! ## From one outline to another -/

/-- Some reading of the changes leads from the one outline to the other, and the display takes them in
some reading. So it shows the right paths where all readings lead to the same. -/
theorem paths_applyAll_changesTo (old new : Forest Item) :
    let cs := ((ofForest old).changesTo (ofForest new)).changes
    let shown := (View.ofForest (ofForest old)).applyAll cs
    let outcomes := readingsAll cs (shape (ofForest old))
    shape (ofForest new) ∈ outcomes ∧ shape shown.roots ∈ outcomes ∧
      ((∀ ts ∈ outcomes, ∀ us ∈ outcomes, paths ts = paths us) →
        shown.paths = (View.ofForest (ofForest new)).paths) := by
  intro cs shown outcomes
  have hnew : shape (ofForest new) ∈ outcomes := by
    have := turns_reconcile [] (ofForest old) (ofForest new) none (located_ofForest new) [] [] rfl
    simp only [List.nil_append, List.append_nil] at this
    exact this [] rfl
  have hshown : shape shown.roots ∈ outcomes := by
    have := View.shape_foldl_applyTo_mem cs (rows (ofForest old))
    rwa [shape_rows] at this
  refine ⟨hnew, hshown, fun h => ?_⟩
  have := h _ hshown _ hnew
  rwa [paths_shape, ← shape_rows, paths_shape] at this

/-- The entry that passes the others is in front of one of two siblings for a while. -/
theorem paths_applyAll_changesTo_overloaded :
    let leaf (name : String) (below : Forest Item) : Rose Item :=
      node (Item.fresh ⟨.function, name⟩ "" (.ofLines 0 0) (.ofLines 0 0)) below
    let old := [leaf "f" [leaf "a" []], leaf "f" [], leaf "h" [leaf "u" []], leaf "x" [],
      leaf "x" [leaf "w" []]]
    let new := [leaf "f" [leaf "a" []], leaf "f" [], leaf "y" [], leaf "y" [],
      leaf "h" [leaf "u" [], leaf "v" []]]
    let cs := ((ofForest old).changesTo (ofForest new)).changes
    let outcomes := readingsAll cs (shape (ofForest old))
    (∀ ts ∈ outcomes, ∀ us ∈ outcomes, paths ts = paths us) ∧
      ((View.ofForest (ofForest old)).applyAll cs).paths = (View.ofForest (ofForest new)).paths := by
  intro leaf old new cs outcomes
  have hall : (outcomes.all fun ts => outcomes.all fun us => paths ts = paths us) = true := by
    simp only [outcomes, cs, old, new, leaf]
    decide +kernel
  have h : ∀ ts ∈ outcomes, ∀ us ∈ outcomes, paths ts = paths us := by
    simpa only [List.all_eq_true, decide_eq_true_eq] using hall
  exact ⟨h, (paths_applyAll_changesTo old new).2.2 h⟩

/-- What is new below the second of two siblings goes below the first. -/
theorem paths_applyAll_misplaced :
    let leaf (name : String) (below : Forest Item) : Rose Item :=
      node (Item.fresh ⟨.function, name⟩ "" (.ofLines 0 0) (.ofLines 0 0)) below
    let old := [leaf "f" [], leaf "f" []]
    let new := [leaf "f" [], leaf "f" [leaf "y" []]]
    let cs := ((ofForest old).changesTo (ofForest new)).changes
    ((View.ofForest (ofForest old)).applyAll cs).paths ≠ (View.ofForest (ofForest new)).paths := by
  decide +kernel

end Outline

end SymbolOutline
