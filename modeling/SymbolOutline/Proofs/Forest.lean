import SymbolOutline.Forest
import SymbolOutline.Proofs.Rose

/-
Forests in which siblings have different keys, and what changing a forest by path does to it. A
change at a path is a change of the forest that the path leads into (`modify_concat`), and two
changes at one path are one change there (`modifyContainer_modifyContainer`). Mapping a forest with a
function that keeps keys commutes with finding and changing trees by path.
-/

namespace SymbolOutline.Forest

open Rose

variable {α β : Type} [Keyed α] [Keyed β]

/-! ## Siblings with different keys -/

mutual
/-- No two siblings below a tree share a key. -/
def DistinctBelow : Rose α → Prop
  | .node _ ts => Distinct ts
/-- No two siblings of a forest share a key, at any level. -/
def Distinct : Forest α → Prop
  | [] => True
  | t :: ts => (∀ s ∈ ts, s.key ≠ t.key) ∧ DistinctBelow t ∧ Distinct ts
end

mutual
/-- Whether siblings have different keys is decided level by level. -/
def decDistinctBelow : (t : Rose α) → Decidable (DistinctBelow t)
  | .node _ ts => decDistinct ts
/-- Whether siblings have different keys is decided sibling by sibling. -/
def decDistinct : (ts : Forest α) → Decidable (Distinct ts)
  | [] => isTrue trivial
  | t :: ts =>
    haveI := decDistinctBelow t
    haveI := decDistinct ts
    inferInstanceAs (Decidable ((∀ s ∈ ts, s.key ≠ t.key) ∧ DistinctBelow t ∧ Distinct ts))
end

instance (ts : Forest α) : Decidable (Distinct ts) := decDistinct ts

@[simp] theorem distinct_nil : Distinct ([] : Forest α) := trivial

theorem distinctBelow_iff {t : Rose α} : DistinctBelow t ↔ Distinct t.children := by
  cases t; rfl

theorem distinct_cons {t : Rose α} {ts : Forest α} :
    Distinct (t :: ts) ↔ (∀ s ∈ ts, s.key ≠ t.key) ∧ Distinct t.children ∧ Distinct ts := by
  rw [← distinctBelow_iff]; rfl

theorem forall_key_ne {ts : Forest α} {k : Key} :
    (∀ t ∈ ts, t.key ≠ k) ↔ k ∉ ts.map Rose.key := by simp

theorem distinct_append {ss ts : Forest α} :
    Distinct (ss ++ ts) ↔ Distinct ss ∧ Distinct ts ∧ ∀ s ∈ ss, ∀ t ∈ ts, s.key ≠ t.key := by
  induction ss with
  | nil => simp
  | cons s ss ih =>
    rw [List.cons_append, distinct_cons, distinct_cons, ih]
    constructor
    · rintro ⟨h1, h2, h3, h4, h5⟩
      refine ⟨⟨fun t ht => h1 t (List.mem_append_left _ ht), h2, h3⟩, h4, fun r hr t ht => ?_⟩
      rcases List.mem_cons.1 hr with rfl | hr
      · exact (h1 t (List.mem_append_right _ ht)).symm
      · exact h5 r hr t ht
    · rintro ⟨⟨h1, h2, h3⟩, h4, h5⟩
      refine ⟨fun t ht => ?_, h2, h3, h4, fun r hr => h5 r (List.mem_cons_of_mem _ hr)⟩
      rcases List.mem_append.1 ht with ht | ht
      · exact h1 t ht
      · exact (h5 s (List.mem_cons_self ..) t ht).symm

theorem nodup_keys {ts : Forest α} (h : Distinct ts) : (ts.map Rose.key).Nodup := by
  induction ts with
  | nil => exact .nil
  | cons t ts ih =>
    obtain ⟨hk, -, hts⟩ := distinct_cons.1 h
    exact List.nodup_cons.2 ⟨forall_key_ne.1 hk, ih hts⟩

theorem distinct_remove {l r : Forest α} {t : Rose α}
    (h : Distinct (l ++ t :: r)) : Distinct t.children ∧ Distinct (l ++ r) := by
  obtain ⟨hl, htr, hk⟩ := distinct_append.1 h
  obtain ⟨-, ht, hr⟩ := distinct_cons.1 htr
  exact ⟨ht, distinct_append.2 ⟨hl, hr, fun s hs u hu => hk s hs u (List.mem_cons_of_mem _ hu)⟩⟩

theorem key_ne_of_distinct {l r : Forest α} {t : Rose α} (h : Distinct (l ++ t :: r)) :
    ∀ s ∈ l ++ r, s.key ≠ t.key := by
  obtain ⟨-, htr, hk⟩ := distinct_append.1 h
  intro s hs
  rcases List.mem_append.1 hs with hs | hs
  · exact hk s hs t (List.mem_cons_self ..)
  · exact (distinct_cons.1 htr).1 s hs

/-- Trees that are distinct have different keys, and each is distinct below. -/
theorem distinct_iff {ts : Forest α} :
    Distinct ts ↔ (ts.map Rose.key).Nodup ∧ ∀ t ∈ ts, Distinct t.children := by
  induction ts with
  | nil => simp
  | cons t ts ih =>
    rw [distinct_cons, ih, forall_key_ne, List.map_cons, List.nodup_cons, List.forall_mem_cons]
    exact ⟨fun ⟨a, b, c, d⟩ => ⟨⟨a, c⟩, b, d⟩, fun ⟨⟨a, c⟩, b, d⟩ => ⟨a, b, c, d⟩⟩

theorem Distinct.perm {ss ts : Forest α} (h : ss.Perm ts) (hs : Distinct ss) : Distinct ts := by
  rw [distinct_iff] at hs ⊢
  exact ⟨(h.map Rose.key).nodup_iff.1 hs.1, fun t ht => hs.2 t (h.mem_iff.2 ht)⟩

theorem Distinct.sublist {ss ts : Forest α} (h : ss.Sublist ts) (ht : Distinct ts) :
    Distinct ss := by
  rw [distinct_iff] at ht ⊢
  exact ⟨(h.map Rose.key).nodup ht.1, fun t ht' => ht.2 t (h.subset ht')⟩

/-! ## One tree among its siblings -/

theorem keys_perm_front {pre l r post : Forest α} {s t : Rose α}
    (h : t.key = s.key) :
    ((pre ++ (l ++ s :: r) ++ post).map Rose.key).Perm
      ((pre ++ [t] ++ (l ++ r) ++ post).map Rose.key) :=
  List.perm_iff_count.2 fun k => by simp [List.count_cons, h]; omega

theorem keys_perm_back {pre l r post : Forest α} {s t : Rose α}
    (h : t.key = s.key) :
    ((pre ++ (l ++ s :: r) ++ post).map Rose.key).Perm
      ((pre ++ (l ++ r) ++ t :: post).map Rose.key) :=
  List.perm_iff_count.2 fun k => by simp [List.count_cons, h]; omega

theorem keys_perm_middle {pre mid post : Forest α} {t : Rose α} :
    ((pre ++ t :: mid ++ post).map Rose.key).Perm (t.key :: (pre ++ mid ++ post).map Rose.key) :=
  List.perm_iff_count.2 fun k => by simp [List.count_cons]; omega

/-! ## The first tree with a key -/

theorem child?_append {pre post : Forest α} {t : Rose α} (h : ∀ s ∈ pre, s.key ≠ t.key) :
    child? (pre ++ t :: post) t.key = some t := by
  unfold child?
  rw [List.find?_append, List.find?_eq_none.2 fun s hs => by simpa using h s hs]
  simp

/-- A tree found by key stands behind trees with other keys. -/
theorem child?_eq_some {ts : Forest α} {k : Key} {t : Rose α} (h : child? ts k = some t) :
    t.key = k ∧ ∃ pre post, ts = pre ++ t :: post ∧ ∀ s ∈ pre, s.key ≠ k := by
  unfold child? at h
  obtain ⟨hk, pre, post, rfl, hpre⟩ := List.find?_eq_some_iff_append.1 h
  exact ⟨by simpa using hk, pre, post, rfl, fun s hs => by simpa using hpre s hs⟩

theorem child?_eq_none {ts : Forest α} {k : Key} (h : child? ts k = none) :
    ∀ t ∈ ts, t.key ≠ k := by
  unfold child? at h
  intro t ht
  simpa using List.find?_eq_none.1 h t ht

theorem child?_middle {pre post : Forest α} {t : Rose α} (h : ∀ s ∈ pre, s.key ≠ t.key) (k : Key) :
    child? (pre ++ t :: post) k = if k = t.key then some t else child? (pre ++ post) k := by
  split
  · rename_i hk
    rw [hk, child?_append h]
  · rename_i hk
    unfold child?
    rw [List.find?_append, List.find?_append, List.find?_cons_of_neg (by simpa using Ne.symm hk)]

theorem find?_cons (ts : Forest α) (k : Key) (p : Path) :
    find? ts (k :: p) = (child? ts k).bind fun t => if p = [] then some t else find? t.children p := by
  cases p with
  | nil => simp [find?]
  | cons j p => rfl

theorem modifyChild_append (f : Rose α → Rose α) {pre post : Forest α} {t : Rose α}
    (h : ∀ s ∈ pre, s.key ≠ t.key) :
    modifyChild t.key f (pre ++ t :: post) = pre ++ f t :: post := by
  induction pre with
  | nil => simp [modifyChild]
  | cons s pre ih =>
    rw [List.cons_append, modifyChild, if_neg (h s (List.mem_cons_self ..)),
      ih fun r hr => h r (List.mem_cons_of_mem _ hr)]
    rfl

theorem removeChild_append {pre post : Forest α} {t : Rose α} (h : ∀ s ∈ pre, s.key ≠ t.key) :
    removeChild t.key (pre ++ t :: post) = pre ++ post := by
  unfold removeChild
  rw [List.eraseP_append_right _ fun s hs => by simpa using h s hs]
  simp

theorem insertBefore_append (new : Forest α) {pre post : Forest α} {t : Rose α}
    (h : ∀ s ∈ pre, s.key ≠ t.key) :
    insertBefore (some t.key) new (pre ++ t :: post) = pre ++ new ++ t :: post := by
  unfold insertBefore
  have hpre : ∀ s ∈ pre, decide (s.key ≠ t.key) = true := fun s hs => by simpa using h s hs
  simp only
  rw [List.takeWhile_append_of_pos hpre, List.dropWhile_append_of_pos hpre]
  simp

/-- Trees are inserted in front of those behind a place. -/
theorem insertBefore_head? (new : Forest α) {pre post : Forest α}
    (h : ((pre ++ post).map Rose.key).Nodup) :
    insertBefore (post.head?.map Rose.key) new (pre ++ post) = pre ++ new ++ post := by
  cases post with
  | nil => simp [insertBefore]
  | cons t post =>
    rw [List.map_append, List.nodup_append] at h
    refine insertBefore_append new fun s hs => ?_
    exact h.2.2 _ (List.mem_map_of_mem hs) _ (List.mem_cons_self ..)

theorem insertBefore_eq_append {ts : Forest α} {before : Option Key}
    (h : ∀ k ∈ before, ∀ t ∈ ts, t.key ≠ k)
    (new : Forest α) : insertBefore before new ts = ts ++ new := by
  cases before with
  | none => rfl
  | some k =>
    have hall : ∀ t ∈ ts, decide (t.key ≠ k) = true := fun t ht => by simpa using h k rfl t ht
    show ts.takeWhile _ ++ new ++ ts.dropWhile _ = ts ++ new
    rw [← List.append_nil ts, List.takeWhile_append_of_pos hall, List.dropWhile_append_of_pos hall]
    simp

theorem perm_insertBefore (before : Option Key) (new ts : Forest α) :
    (new ++ ts).Perm (insertBefore before new ts) := by
  cases before with
  | none => exact List.perm_append_comm
  | some k =>
    have h : (new ++ (ts.takeWhile (fun t => t.key ≠ k) ++ ts.dropWhile fun t => t.key ≠ k)).Perm
        (insertBefore (some k) new ts) := by
      rw [← List.append_assoc]
      exact List.perm_append_comm.append_right _
    rwa [List.takeWhile_append_dropWhile] at h

theorem foldl_removeChild {pre mid post : Forest α} (h : ∀ s ∈ pre, ∀ t ∈ mid, s.key ≠ t.key) :
    (mid.map Rose.key).foldl (fun ts k => removeChild k ts) (pre ++ mid ++ post) = pre ++ post := by
  induction mid with
  | nil => simp
  | cons t mid ih =>
    rw [List.map_cons, List.foldl_cons, List.append_assoc, List.cons_append,
      removeChild_append fun s hs => h s hs t (List.mem_cons_self ..), ← List.append_assoc]
    exact ih fun s hs r hr => h s hs r (List.mem_cons_of_mem _ hr)

theorem foldl_removeChild_eq_self {ts : Forest α} {ks : List Key} (h : ∀ t ∈ ts, t.key ∉ ks) :
    ks.foldl (fun ts k => removeChild k ts) ts = ts := by
  induction ks with
  | nil => rfl
  | cons k ks ih =>
    have hk : removeChild k ts = ts := by
      refine List.eraseP_of_forall_not fun t ht => ?_
      have hne : t.key ≠ k := fun he => h t ht (by rw [he]; exact List.mem_cons_self ..)
      simpa using hne
    rw [List.foldl_cons, hk]
    exact ih fun t ht hmem => h t ht (List.mem_cons_of_mem _ hmem)

theorem foldl_removeChild_sublist (ks : List Key) (ts : Forest α) :
    (ks.foldl (fun ts k => removeChild k ts) ts).Sublist ts := by
  induction ks generalizing ts with
  | nil => exact .refl _
  | cons k ks ih => exact (ih _).trans (List.eraseP_sublist ..)

theorem takeOut_singleton {pre post : Forest α} {t : Rose α} (h : ∀ s ∈ pre, s.key ≠ t.key) :
    takeOut [t.key] (pre ++ t :: post) = ([t], pre ++ post) := by
  simp [takeOut, child?_append h, removeChild_append h]

theorem perm_takeOut (ks : List Key) (ts : Forest α) :
    ts.Perm ((takeOut ks ts).1 ++ (takeOut ks ts).2) := by
  induction ks generalizing ts with
  | nil => exact .refl _
  | cons k ks ih =>
    rw [takeOut]
    cases h : child? ts k with
    | none => exact ih ts
    | some t =>
      obtain ⟨hk, pre, post, rfl, hpre⟩ := child?_eq_some h
      subst hk
      have := ih (pre ++ post)
      rw [removeChild_append hpre]
      exact List.perm_middle.trans (this.cons t)

theorem modifyChild_modifyChild {k : Key} {f g : Rose α → Rose α} (hf : ∀ t, (f t).key = t.key)
    (ts : Forest α) : modifyChild k g (modifyChild k f ts) = modifyChild k (g ∘ f) ts := by
  induction ts with
  | nil => rfl
  | cons t ts ih =>
    rw [modifyChild]
    by_cases hk : t.key = k
    · rw [if_pos hk, modifyChild, if_pos ((hf t).trans hk), modifyChild, if_pos hk]; rfl
    · rw [if_neg hk, modifyChild, if_neg hk, modifyChild, if_neg hk, ih]

theorem modifyChild_eq_self {k : Key} (f : Rose α → Rose α) {ts : Forest α}
    (h : ∀ t ∈ ts, t.key ≠ k) : modifyChild k f ts = ts := by
  induction ts with
  | nil => rfl
  | cons t ts ih =>
    rw [modifyChild, if_neg (h t (List.mem_cons_self ..)),
      ih fun s hs => h s (List.mem_cons_of_mem _ hs)]

theorem child?_modifyChild {f : Rose α → Rose α} (hf : ∀ t, (f t).key = t.key) (k : Key)
    (ts : Forest α) : child? (modifyChild k f ts) k = (child? ts k).map f := by
  cases hc : child? ts k with
  | none => rw [modifyChild_eq_self _ (child?_eq_none hc), hc]; rfl
  | some t =>
    obtain ⟨rfl, pre, post, rfl, hpre⟩ := child?_eq_some hc
    rw [modifyChild_append _ hpre, ← hf t, child?_append (by rwa [hf])]
    rfl

@[simp] theorem key_setChildren (f : Forest α → Forest α) (t : Rose α) :
    (t.setChildren f).key = t.key := by cases t; rfl

omit [Keyed α] in
theorem setChildren_comp (f g : Forest α → Forest α) (t : Rose α) :
    (t.setChildren f).setChildren g = t.setChildren (g ∘ f) := by cases t; rfl

/-! ## The forest that a path leads into -/

/-- A change at a path is a change among the siblings there. -/
theorem modify_concat (f : Rose α → Rose α) (p : Path) (k : Key) (ts : Forest α) :
    modify f (p ++ [k]) ts = modifyContainer (modifyChild k f) p ts := by
  induction p generalizing ts with
  | nil => rfl
  | cons j p ih =>
    cases p with
    | nil => rfl
    | cons i p =>
      rw [List.cons_append, modifyContainer, ← funext ih]
      rfl

theorem modify_cons_eq_self (f : Rose α → Rose α) {k : Key} (p : Path) {ts : Forest α}
    (h : ∀ t ∈ ts, t.key ≠ k) : modify f (k :: p) ts = ts := by
  cases p with
  | nil => exact modifyChild_eq_self _ h
  | cons j p => exact modifyChild_eq_self _ h

theorem modify_cons_append (f : Rose α → Rose α) (p : Path) {pre post : Forest α} {t : Rose α}
    (h : ∀ s ∈ pre, s.key ≠ t.key) :
    modify f (t.key :: p) (pre ++ t :: post) =
      pre ++ (if p = [] then f t else t.setChildren (modify f p)) :: post := by
  cases p with
  | nil => exact modifyChild_append f h
  | cons j p => exact modifyChild_append _ h

theorem modifyContainer_concat (f : Forest α → Forest α) (p : Path) (k : Key) (ts : Forest α) :
    modifyContainer f (p ++ [k]) ts =
      modifyContainer (modifyChild k (Rose.setChildren f)) p ts := by
  induction p generalizing ts with
  | nil => rfl
  | cons j p ih => rw [List.cons_append, modifyContainer, funext ih, modifyContainer]

/-- Two changes at one path are one. -/
theorem modifyContainer_modifyContainer (f g : Forest α → Forest α) (p : Path) (ts : Forest α) :
    modifyContainer g p (modifyContainer f p ts) = modifyContainer (g ∘ f) p ts := by
  induction p generalizing ts with
  | nil => rfl
  | cons k p ih =>
    rw [modifyContainer, modifyContainer, modifyContainer,
      modifyChild_modifyChild fun t => key_setChildren ..]
    congr 1
    funext t
    rw [Function.comp_apply, setChildren_comp]
    congr 1
    exact funext ih

theorem find?_concat (ts : Forest α) (p : Path) (k : Key) :
    find? ts (p ++ [k]) = (container? ts p).bind fun cs => child? cs k := by
  induction p generalizing ts with
  | nil => rfl
  | cons j p ih =>
    rw [List.cons_append, find?_cons, container?, Option.bind_assoc]
    congr 1
    funext t
    rw [if_neg (by simp), ih]

theorem container?_concat (ts : Forest α) (p : Path) (k : Key) :
    container? ts (p ++ [k]) = (find? ts (p ++ [k])).map Rose.children := by
  induction p generalizing ts with
  | nil => show (child? ts k).bind _ = (child? ts k).map _; cases child? ts k <;> rfl
  | cons j p ih =>
    rw [List.cons_append, find?_cons, container?]
    cases child? ts j with
    | none => rfl
    | some t => simpa using ih t.children

theorem container?_modifyContainer (f : Forest α → Forest α) (p : Path) (ts : Forest α) :
    container? (modifyContainer f p ts) p = (container? ts p).map f := by
  induction p generalizing ts with
  | nil => rfl
  | cons k p ih =>
    rw [modifyContainer, container?, container?, child?_modifyChild fun t => key_setChildren ..]
    cases child? ts k with
    | none => rfl
    | some t =>
      cases t
      exact ih _

/-- A change of the forest that a path leads into keeps trees distinct if it keeps those distinct
that it changes. -/
theorem Distinct.modifyContainer {f : Forest α → Forest α} {p : Path} {ts : Forest α}
    (h : Distinct ts) (hf : ∀ cs ∈ container? ts p, Distinct cs → Distinct (f cs)) :
    Distinct (modifyContainer f p ts) := by
  induction p generalizing ts with
  | nil => exact hf ts rfl h
  | cons k p ih =>
    rw [Forest.modifyContainer]
    cases hc : child? ts k with
    | none => rwa [modifyChild_eq_self _ (child?_eq_none hc)]
    | some t =>
      obtain ⟨rfl, pre, post, rfl, hpre⟩ := child?_eq_some hc
      have hbelow : Distinct (Forest.modifyContainer f p t.children) :=
        ih (distinct_remove h).1 fun cs hcs => hf cs (by rw [container?, hc]; exact hcs)
      rw [distinct_iff, List.forall_mem_append, List.forall_mem_cons] at h
      rw [modifyChild_append _ hpre, distinct_iff, List.forall_mem_append, List.forall_mem_cons]
      refine ⟨by simpa using h.1, h.2.1, ?_, h.2.2.2⟩
      cases t
      exact hbelow

/-! ## Putting a forest where a path leads -/

/-- The forest with another forest where a path leads. -/
def put (p : Path) (c : Forest α) (ts : Forest α) : Forest α := modifyContainer (fun _ => c) p ts

@[simp] theorem put_nil (c ts : Forest α) : put [] c ts = c := rfl

/-- A change where a forest was put is a change of that forest. -/
theorem modifyContainer_put (f : Forest α → Forest α) (p : Path) (c ts : Forest α) :
    modifyContainer f p (put p c ts) = put p (f c) ts :=
  modifyContainer_modifyContainer _ f p ts

theorem container?_put {p : Path} {ts : Forest α} (h : (container? ts p).isSome) (c : Forest α) :
    container? (put p c ts) p = some c := by
  obtain ⟨cs, hcs⟩ := Option.isSome_iff_exists.1 h
  rw [put, container?_modifyContainer, hcs]
  rfl

/-- What was put below one tree of a forest that was put somewhere. -/
theorem put_concat (p : Path) {pre post : Forest α} {t : Rose α} (h : ∀ s ∈ pre, s.key ≠ t.key)
    (c ts : Forest α) :
    put (p ++ [t.key]) c (put p (pre ++ t :: post) ts) =
      put p (pre ++ t.setChildren (fun _ => c) :: post) ts := by
  rw [put, modifyContainer_concat, modifyContainer_put, modifyChild_append _ h]

/-- A change at one tree of a forest that was put somewhere. -/
theorem modify_put_concat (f : Rose α → Rose α) (p : Path) {pre post : Forest α} {t : Rose α}
    (h : ∀ s ∈ pre, s.key ≠ t.key) (ts : Forest α) :
    modify f (p ++ [t.key]) (put p (pre ++ t :: post) ts) = put p (pre ++ f t :: post) ts := by
  rw [modify_concat, modifyContainer_put, modifyChild_append _ h]

/-! ## Mapping with a function that keeps keys -/

section

variable {φ : α → β} (hφ : ∀ a, Keyed.key (φ a) = Keyed.key a)
include hφ

theorem key_map (t : Rose α) : (t.map φ).key = t.key := by
  cases t; exact hφ _

theorem map_key_mapAll (ts : Forest α) : (mapAll φ ts).map Rose.key = ts.map Rose.key := by
  rw [mapAll_eq_map, List.map_map]
  exact List.map_congr_left fun t _ => key_map hφ t

theorem distinct_mapAll {ts : Forest α} : Distinct (mapAll φ ts) ↔ Distinct ts := by
  induction ts using induct_forest with
  | nil => rfl
  | cons a cs ts ihc ih =>
    rw [mapAll_cons, distinct_cons, distinct_cons, children_map, children_node, ihc, ih,
      key_map hφ, mapAll_eq_map]
    simp only [List.mem_map, forall_exists_index, and_imp, forall_apply_eq_imp_iff₂, key_map hφ]

theorem child?_mapAll (ts : Forest α) (k : Key) :
    child? (mapAll φ ts) k = (child? ts k).map (Rose.map φ) := by
  unfold child?
  rw [mapAll_eq_map, List.find?_map]
  congr 2
  funext t
  simp [key_map hφ]

theorem find?_mapAll (ts : Forest α) (p : Path) :
    find? (mapAll φ ts) p = (find? ts p).map (Rose.map φ) := by
  induction p generalizing ts with
  | nil => rfl
  | cons k p ih =>
    cases p with
    | nil => exact child?_mapAll hφ ts k
    | cons j p =>
      rw [find?, find?, child?_mapAll hφ]
      cases child? ts k with
      | none => rfl
      | some t =>
        rw [Option.map_some, Option.bind_some, children_map]
        exact ih t.children

theorem modifyChild_mapAll {f : Rose α → Rose α} {g : Rose β → Rose β}
    (h : ∀ t, g (t.map φ) = (f t).map φ) (k : Key) (ts : Forest α) :
    modifyChild k g (mapAll φ ts) = mapAll φ (modifyChild k f ts) := by
  induction ts with
  | nil => rfl
  | cons t ts ih =>
    rw [mapAll_cons, modifyChild, modifyChild, key_map hφ]
    by_cases hk : t.key = k
    · rw [if_pos hk, if_pos hk, h]; rfl
    · rw [if_neg hk, if_neg hk, ih]; rfl

theorem modify_mapAll {f : Rose α → Rose α} {g : Rose β → Rose β}
    (h : ∀ t, g (t.map φ) = (f t).map φ) (p : Path) (ts : Forest α) :
    modify g p (mapAll φ ts) = mapAll φ (modify f p ts) := by
  induction p generalizing ts with
  | nil => rfl
  | cons k p ih =>
    cases p with
    | nil => exact modifyChild_mapAll hφ h k ts
    | cons j p =>
      refine modifyChild_mapAll hφ (fun t => ?_) k ts
      cases t
      simp only [map_node, setChildren_node, ih]

end

omit [Keyed β] in
/-- A change that a function does not see at any value is not seen in the mapped forest. -/
theorem mapAll_modify {f : α → α} {φ : α → β} (h : ∀ a, φ (f a) = φ a) (p : Path) (ts : Forest α) :
    mapAll φ (modify (setValue f) p ts) = mapAll φ ts := by
  have child : ∀ (g : Rose α → Rose α), (∀ t, (g t).map φ = t.map φ) → ∀ (k : Key) (ts : Forest α),
      mapAll φ (modifyChild k g ts) = mapAll φ ts := by
    intro g hg k ts
    induction ts with
    | nil => rfl
    | cons t ts ih =>
      rw [modifyChild]
      split
      · rw [mapAll_cons, mapAll_cons, hg]
      · rw [mapAll_cons, mapAll_cons, ih]
  induction p generalizing ts with
  | nil => rfl
  | cons k p ih =>
    cases p with
    | nil => exact child _ (fun t => by cases t; simp [map_node, h]) k ts
    | cons j p => exact child _ (fun t => by cases t; simp [map_node, ih]) k ts

/-- A change of values that keeps their keys keeps trees distinct. -/
theorem Distinct.modify {f : α → α} (hf : ∀ a, Keyed.key (f a) = Keyed.key a) {p : Path}
    {ts : Forest α} (h : Distinct ts) : Distinct (modify (setValue f) p ts) := by
  let _ : Keyed Key := ⟨id⟩
  have hkeys : ∀ ts : Forest α, Distinct (mapAll Keyed.key ts) ↔ Distinct ts := fun _ =>
    distinct_mapAll (φ := (Keyed.key : α → Key)) fun _ => rfl
  rw [← hkeys, mapAll_modify hf, hkeys]
  exact h

end SymbolOutline.Forest
