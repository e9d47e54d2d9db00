import Mathlib.Data.List.Induction
import Mathlib.Data.List.TakeWhile
import SymbolOutline.Proofs.Fitting

/-
All that a change does to a display, whatever is displayed and whatever the change names
(`apply_affects`).

A change is about an entry or about the siblings at a path. What is around them, from the roots inwards,
stays as it is (`Differs`): the entries on the way there, and the trees in front of and behind each of
them. The siblings are parted in front of the one named, or behind all of them (`Parted`), and entries
come out one key after the other (`Taken`). Where the path leads nowhere, nothing happens.
-/

namespace SymbolOutline

open Forest Rose

namespace Forest

variable {α : Type}

/-! ## What is around a forest -/

/-- What is around a forest, from the roots inwards: the trees in front of an entry, its value, and the
trees behind it. -/
abbrev Surroundings (α : Type) := List (Forest α × α × Forest α)

/-- A forest with what is around it. -/
def within : Surroundings α → Forest α → Forest α
  | [], cs => cs
  | (pre, a, post) :: fs, cs => pre ++ node a (within fs cs) :: post

variable [Keyed α]

/-- The path through what is around a forest. -/
def Surroundings.path (fs : Surroundings α) : Path := fs.map fun f => Keyed.key f.2.1

/-- The path leads to the forest: no entry on the way has a sibling before it with its key. -/
def Surroundings.Leads (fs : Surroundings α) : Prop := ∀ f ∈ fs, ∀ s ∈ f.1, s.key ≠ Keyed.key f.2.1

/-- Two forests differ where a path leads: one has `old` there, and the other one has `new`. -/
def Differs (p : Path) (old new ts ts' : Forest α) : Prop :=
  ∃ fs : Surroundings α, fs.Leads ∧ fs.path = p ∧ ts = within fs old ∧ ts' = within fs new

variable {p : Path} {cs ts : Forest α} {f : Forest α → Forest α}

/-- A forest that a path leads into has something around it. -/
theorem exists_within (h : container? ts p = some cs) :
    ∃ fs : Surroundings α, fs.Leads ∧ fs.path = p ∧ ts = within fs cs := by
  induction p generalizing ts with
  | nil => exact ⟨[], by simp [Surroundings.Leads], rfl, Option.some.inj h⟩
  | cons k p ih =>
    obtain ⟨t, ht, hcs⟩ := Option.bind_eq_some_iff.1 h
    obtain ⟨rfl, pre, post, rfl, hpre⟩ := child?_eq_some ht
    obtain ⟨fs, hleads, rfl, hts⟩ := ih hcs
    obtain ⟨a, ds⟩ := t
    refine ⟨(pre, a, post) :: fs, List.forall_mem_cons.2 ⟨hpre, hleads⟩, rfl, ?_⟩
    rw [within, ← hts, children_node]

/-- What is around a forest stays when the forest is changed. -/
theorem modifyContainer_within (f : Forest α → Forest α) {fs : Surroundings α} (h : fs.Leads)
    (cs : Forest α) : modifyContainer f fs.path (within fs cs) = within fs (f cs) := by
  induction fs with
  | nil => rfl
  | cons e fs ih =>
    obtain ⟨pre, a, post⟩ := e
    obtain ⟨hpre, hleads⟩ := List.forall_mem_cons.1 h
    let t : Rose α := node a (within fs cs)
    calc modifyContainer f (Surroundings.path ((pre, a, post) :: fs)) (pre ++ t :: post)
      _ = pre ++ t.setChildren (modifyContainer f (Surroundings.path fs)) :: post :=
        modifyChild_append (t := t) _ hpre
      _ = pre ++ node a (within fs (f cs)) :: post := by rw [setChildren_node, ih hleads]

theorem differs_modifyContainer (f : Forest α → Forest α) (h : container? ts p = some cs) :
    Differs p cs (f cs) ts (modifyContainer f p ts) := by
  obtain ⟨fs, hleads, rfl, rfl⟩ := exists_within h
  exact ⟨fs, hleads, rfl, rfl, modifyContainer_within f hleads cs⟩

/-- Nothing happens where a path leads nowhere, or where nothing happens to the forest there. -/
theorem modifyContainer_eq_self (h : ∀ cs ∈ container? ts p, f cs = cs) :
    modifyContainer f p ts = ts := by
  induction p generalizing ts with
  | nil => exact h ts rfl
  | cons k p ih =>
    rw [modifyContainer]
    cases hc : child? ts k with
    | none => exact modifyChild_eq_self _ (child?_eq_none hc)
    | some t =>
      have hbelow : modifyContainer f p t.children = t.children :=
        ih fun cs hcs => h cs (by rw [container?, hc]; exact hcs)
      obtain ⟨rfl, pre, post, rfl, hpre⟩ := child?_eq_some hc
      obtain ⟨a, ds⟩ := t
      rw [modifyChild_append _ hpre, setChildren_node, ← children_node a ds, hbelow]

theorem modify_eq_self {p : Path} (f : Rose α → Rose α) (h : find? ts p = none) :
    modify f p ts = ts := by
  induction p using List.reverseRecOn with
  | nil => rfl
  | append_singleton p k _ =>
    rw [find?_concat] at h
    rw [modify_concat]
    refine modifyContainer_eq_self fun cs hcs => modifyChild_eq_self f (child?_eq_none ?_)
    rw [Option.mem_def.1 hcs] at h
    exact h

/-- A change of a tree is a change among its siblings. -/
theorem differs_modify (f : Rose α → Rose α) {t : Rose α} (h : find? ts p = some t) :
    ∃ place pre post, p = place ++ [t.key] ∧ (∀ s ∈ pre, s.key ≠ t.key) ∧
      Differs place (pre ++ t :: post) (pre ++ f t :: post) ts (modify f p ts) := by
  induction p using List.reverseRecOn with
  | nil => cases h
  | append_singleton place k _ =>
    rw [find?_concat] at h
    obtain ⟨cs, hcs, ht⟩ := Option.bind_eq_some_iff.1 h
    obtain ⟨rfl, pre, post, rfl, hpre⟩ := child?_eq_some ht
    refine ⟨place, pre, post, rfl, hpre, ?_⟩
    rw [modify_concat, ← modifyChild_append f hpre]
    exact differs_modifyContainer _ hcs

/-! ## Trees put in and taken out -/

/-- Trees are parted in front of the first one with a key, or behind all of them. -/
def Parted (before : Option Key) (pre post : Forest α) : Prop :=
  (∀ s ∈ pre, some s.key ≠ before) ∧ ∀ t ∈ post.head?, some t.key = before

/-- What comes out of a forest, and what is left, when for each key in turn the first tree is taken that
is left and has it. -/
inductive Taken : List Key → Forest α → Forest α → Forest α → Prop
  | done (ts : Forest α) : Taken [] ts [] ts
  | missing {k : Key} {ks : List Key} {ts out left : Forest α} : (∀ t ∈ ts, t.key ≠ k) →
      Taken ks ts out left → Taken (k :: ks) ts out left
  | found {ks : List Key} {pre post out left : Forest α} {t : Rose α} : (∀ s ∈ pre, s.key ≠ t.key) →
      Taken ks (pre ++ post) out left → Taken (t.key :: ks) (pre ++ t :: post) (t :: out) left

theorem exists_parted (before : Option Key) (new ts : Forest α) :
    ∃ pre post, ts = pre ++ post ∧ Parted before pre post ∧
      insertBefore before new ts = pre ++ new ++ post := by
  cases before with
  | none => exact ⟨ts, [], by simp, ⟨by simp, by simp⟩, by simp [insertBefore]⟩
  | some k =>
    refine ⟨_, _, (List.takeWhile_append_dropWhile (p := fun t : Rose α => t.key ≠ k)).symm,
      ⟨fun s hs => ?_, fun t ht => ?_⟩, rfl⟩
    · simpa using List.mem_takeWhile_imp hs
    · have := List.head?_dropWhile_not (fun t : Rose α => decide (t.key ≠ k)) ts
      rw [Option.mem_def.1 ht] at this
      simpa using this

theorem taken_takeOut (ks : List Key) (ts : Forest α) :
    Taken ks ts (takeOut ks ts).1 (takeOut ks ts).2 := by
  induction ks generalizing ts with
  | nil => exact .done ts
  | cons k ks ih =>
    rw [takeOut]
    cases h : child? ts k with
    | none => exact .missing (child?_eq_none h) (ih ts)
    | some t =>
      obtain ⟨rfl, pre, post, rfl, hpre⟩ := child?_eq_some h
      rw [removeChild_append hpre]
      exact .found hpre (ih (pre ++ post))

/-- To remove trees is to take them out and leave the others. -/
theorem foldl_removeChild_eq (ks : List Key) (ts : Forest α) :
    ks.foldl (fun ts k => removeChild k ts) ts = (takeOut ks ts).2 := by
  induction ks generalizing ts with
  | nil => rfl
  | cons k ks ih =>
    rw [List.foldl_cons, takeOut, ih]
    cases h : child? ts k with
    | none =>
      have hself : removeChild k ts = ts :=
        List.eraseP_of_forall_not fun t ht => by simpa using child?_eq_none h t ht
      rw [hself]
    | some t => rfl

/-- What is left stays in order. -/
theorem takeOut_sublist (ks : List Key) (ts : Forest α) : (takeOut ks ts).2.Sublist ts := by
  rw [← foldl_removeChild_eq]
  exact foldl_removeChild_sublist ks ts

end Forest

/-! ## Rows -/

/-- A row is another one with a new value for a property, if the value is of the property's type. -/
structure Row.Gets (property : Property) (value : PropertyValue) (r r' : Row) : Prop where
  key : r'.key = r.key
  others : ∀ other ≠ property, r'.get other = r.get other
  fits : property.Takes value → r'.get property = value
  misfits : ¬ property.Takes value → r' = r

theorem Row.gets_set (property : Property) (value : PropertyValue) (r : Row) :
    r.Gets property value (r.set property value) where
  key := r.key_set property value
  others := fun _ h => get_set_of_ne h r value
  fits := by cases property <;> cases value <;> simp [Property.Takes, set, get]
  misfits := by cases property <;> cases value <;> simp [Property.Takes, set]

/-! ## Changes -/

namespace Change

/-- The path of a change leads to the entry it is about, or to the place that holds those it is about. -/
def Resolves (roots : Forest Row) : Change → Prop
  | .update p _ _ => (find? roots p).isSome
  | .insert p _ _ | .delete p _ | .move p _ _ => (container? roots p).isSome

/-- What a change makes of rows, and that it does nothing else to them. -/
def Affects (roots roots' : Forest Row) : Change → Prop
  | .update p property value => ∀ t ∈ find? roots p, ∃ r place pre post,
      t.value.Gets property value r ∧ p = place ++ [t.key] ∧ (∀ s ∈ pre, s.key ≠ t.key) ∧
        Differs place (pre ++ t :: post) (pre ++ node r t.children :: post) roots roots'
  | .insert p before entries => ∀ cs ∈ container? roots p, ∃ pre post,
      cs = pre ++ post ∧ Parted before pre post ∧ Differs p cs (pre ++ rows entries ++ post) roots roots'
  | .delete p keys => ∀ cs ∈ container? roots p, ∃ out left,
      Taken keys cs out left ∧ Differs p cs left roots roots'
  | .move p keys before => ∀ cs ∈ container? roots p, ∃ out pre post,
      Taken keys cs out (pre ++ post) ∧ Parted before pre post ∧
        cs.Perm (pre ++ out ++ post) ∧ (pre ++ post).Sublist cs ∧
        Differs p cs (pre ++ out ++ post) roots roots'

end Change

namespace View

theorem applyTo_eq_self {roots : Forest Row} {c : Change} (h : ¬ c.Resolves roots) :
    applyTo roots c = roots := by
  have hnowhere : ∀ {p : Path} (f : Forest Row → Forest Row), ¬ (container? roots p).isSome →
      modifyContainer f p roots = roots := by
    intro p f hp
    refine modifyContainer_eq_self fun cs hcs => ?_
    rw [Option.mem_def.1 hcs] at hp
    exact absurd rfl hp
  cases c with
  | update p property value => exact modify_eq_self _ (Option.not_isSome_iff_eq_none.1 h)
  | insert p before entries => exact hnowhere _ h
  | delete p keys => exact hnowhere _ h
  | move p keys before => exact hnowhere _ h

theorem affects_applyTo (roots : Forest Row) (c : Change) : c.Affects roots (applyTo roots c) := by
  cases c with
  | update p property value =>
    intro t ht
    obtain ⟨place, pre, post, hp, hpre, hdiffers⟩ :=
      differs_modify (Rose.setValue fun r : Row => r.set property value) ht
    refine ⟨_, place, pre, post, t.value.gets_set property value, hp, hpre, ?_⟩
    cases t
    exact hdiffers
  | insert p before entries =>
    intro cs hcs
    obtain ⟨pre, post, hparts, hparted, hinsert⟩ := exists_parted before (rows entries) cs
    refine ⟨pre, post, hparts, hparted, ?_⟩
    rw [← hinsert]
    exact differs_modifyContainer _ hcs
  | delete p keys =>
    intro cs hcs
    refine ⟨_, _, taken_takeOut keys cs, ?_⟩
    rw [← foldl_removeChild_eq]
    exact differs_modifyContainer _ hcs
  | move p keys before =>
    intro cs hcs
    have hmoved := differs_modifyContainer
      (fun ts => insertBefore before (takeOut keys ts).1 (takeOut keys ts).2) hcs
    have htaken := taken_takeOut keys cs
    have hsublist := takeOut_sublist keys cs
    have hperm := perm_takeOut keys cs
    obtain ⟨pre, post, hparts, hparted, hinsert⟩ :=
      exists_parted before (takeOut keys cs).1 (takeOut keys cs).2
    rw [hparts] at htaken hsublist
    refine ⟨_, pre, post, htaken, hparted, ?_, hsublist, ?_⟩
    · rw [← hinsert]
      exact hperm.trans (perm_insertBefore before _ _)
    · rw [← hinsert]
      exact hmoved

/-- A change does to a display what it is to do where its path leads, and nothing else; where its path
leads nowhere, it does nothing. -/
theorem apply_affects (v : View) (c : Change) :
    (¬ c.Resolves v.roots → v.apply c = v) ∧
      ∃ roots, v.apply c = { v with roots } ∧ c.Affects v.roots roots :=
  ⟨fun h => congrArg (View.mk · v.maxDepth v.placeholder) (applyTo_eq_self h),
    _, rfl, affects_applyTo v.roots c⟩

/-- A key that siblings share is named three times, a missing one once, and the entry to move in front of
is moved itself. An update is about an entry that is not there. -/
theorem apply_affects_stale :
    let row (name detail : String) : Row :=
      (Item.fresh ⟨.function, name⟩ detail (.ofLines 0 0) (.ofLines 0 0)).row
    let v := { empty none with
      roots := [node (row "a" "") [node (row "f" "1") [], node (row "g" "") [], node (row "f" "2") []]] }
    let a : Key := ⟨.function, "a"⟩
    let f : Key := ⟨.function, "f"⟩
    let stale := Change.update [a, ⟨.function, "x"⟩] .expanded (.flag true)
    let moving := Change.move [a] [f, ⟨.function, "x"⟩, f, f] (some f)
    (¬ stale.Resolves v.roots ∧ v.apply stale = v) ∧
      (valuesAll (v.apply moving).roots).map (fun r => (r.key.name, r.detail)) =
        [("a", ""), ("g", ""), ("f", "1"), ("f", "2")] ∧
      ∃ roots, v.apply moving = { v with roots } ∧ moving.Affects v.roots roots := by
  intro row v a f stale moving
  have hstale : ¬ stale.Resolves v.roots := by
    unfold Change.Resolves
    decide
  exact ⟨⟨hstale, (apply_affects v stale).1 hstale⟩, by decide, (apply_affects v moving).2⟩

end View

end SymbolOutline
