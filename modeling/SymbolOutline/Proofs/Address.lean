import Mathlib.Logic.Basic
import SymbolOutline.Proofs.Paths

/-
Entries by where they stand. An address tells every entry from every other, also where siblings
share a key; a path leads to the first sibling with a key and so leaves some entries out, which are
shadowed. A change at a path is a change of the entry that carries the path and is not shadowed
(`valueAt?_modify`).
-/

namespace SymbolOutline

open Rose

/-! ## Values at addresses -/

namespace Rose

variable {α β : Type}

/-- The value at an address below a tree; the empty address is that of the tree itself. -/
def valueAt? (t : Rose α) : List Nat → Option α
  | [] => some t.value
  | n :: a => t.children[n]?.bind fun u => u.valueAt? a

/-- An entry below a tree is shadowed if it, or one above it, has a sibling before it with its key. -/
def Shadowed [Keyed α] (t : Rose α) : List Nat → Prop
  | [] => False
  | n :: a => ∃ u ∈ t.children[n]?, (∃ s ∈ t.children.take n, s.key = u.key) ∨ u.Shadowed a

/-- Whether an entry is shadowed is decided level by level. -/
def decShadowed [Keyed α] (t : Rose α) : (a : List Nat) → Decidable (t.Shadowed a)
  | [] => isFalse not_false
  | n :: a =>
    haveI (u : Rose α) : Decidable (u.Shadowed a) := u.decShadowed a
    inferInstanceAs (Decidable (∃ u ∈ t.children[n]?, _ ∨ _))

instance [Keyed α] (t : Rose α) (a : List Nat) : Decidable (t.Shadowed a) := t.decShadowed a

theorem valueAt?_map (f : α → β) (t : Rose α) (a : List Nat) :
    (t.map f).valueAt? a = (t.valueAt? a).map f := by
  induction a generalizing t with
  | nil => cases t; rfl
  | cons n a ih =>
    rw [valueAt?, valueAt?, children_map, mapAll_eq_map, List.getElem?_map]
    cases t.children[n]? with
    | none => rfl
    | some u => exact ih u

theorem shadowed_map [Keyed α] [Keyed β] {f : α → β} (hf : ∀ i, Keyed.key (f i) = Keyed.key i)
    (t : Rose α) (a : List Nat) : (t.map f).Shadowed a ↔ t.Shadowed a := by
  induction a generalizing t with
  | nil => rfl
  | cons n a ih =>
    have hkey : ∀ u : Rose α, (u.map f).key = u.key := Forest.key_map hf
    rw [Shadowed, Shadowed, children_map, mapAll_eq_map, List.getElem?_map, ← List.map_take]
    cases t.children[n]? with
    | none => simp
    | some u => simp [ih, hkey, -List.map_take]

theorem value_mem_of_valueAt? {ts : Forest α} {t : Rose α} {i : α} (ht : t ∈ ts) {a : List Nat}
    (hi : t.valueAt? a = some i) : i ∈ valuesAll ts := by
  induction a generalizing t ts with
  | nil =>
    obtain rfl := Option.some.inj hi
    exact value_mem_valuesAll ht
  | cons n a ih =>
    obtain ⟨u, hu, hi⟩ := Option.bind_eq_some_iff.1 hi
    exact mem_valuesAll_children ht (ih (List.mem_of_getElem? hu) hi)

end Rose

namespace Forest

variable {α β : Type}

/-- The value at an address in a forest; there is none at the empty address. -/
def valueAt? (ts : Forest α) : List Nat → Option α
  | [] => none
  | n :: a => ts[n]?.bind fun u => u.valueAt? a

/-- An entry of a forest is shadowed if it, or one above it, has a sibling before it with its key. -/
def Shadowed [Keyed α] (ts : Forest α) : List Nat → Prop
  | [] => False
  | n :: a => ∃ u ∈ ts[n]?, (∃ s ∈ ts.take n, s.key = u.key) ∨ u.Shadowed a

instance [Keyed α] (ts : Forest α) (a : List Nat) : Decidable (Shadowed ts a) := by
  cases a <;> unfold Shadowed <;> infer_instance

theorem valueAt?_mapAll (f : α → β) (ts : Forest α) (a : List Nat) :
    valueAt? (mapAll f ts) a = (valueAt? ts a).map f := by
  cases a with
  | nil => rfl
  | cons n a =>
    rw [valueAt?, valueAt?, mapAll_eq_map, List.getElem?_map]
    cases ts[n]? with
    | none => rfl
    | some u => exact u.valueAt?_map f a

/-- Forests with the same values at all addresses are the same. -/
theorem ext_valueAt? {ss ts : Forest α} (h : ∀ a, valueAt? ss a = valueAt? ts a) : ss = ts := by
  induction ss using induct_forest generalizing ts with
  | nil =>
    cases ts with
    | nil => rfl
    | cons t ts => cases h [0]
  | cons i cs ss ihc ih =>
    cases ts with
    | nil => cases h [0]
    | cons t ts =>
      obtain ⟨j, ds⟩ := t
      obtain rfl : i = j := Option.some.inj (h [0])
      have below : cs = ds := ihc fun a => by
        cases a with
        | nil => rfl
        | cons n a => exact h (0 :: n :: a)
      have beside : ss = ts := ih fun a => by
        cases a with
        | nil => rfl
        | cons n a => exact h ((n + 1) :: a)
      rw [below, beside]

theorem shadowed_mapAll [Keyed α] [Keyed β] {f : α → β} (hf : ∀ i, Keyed.key (f i) = Keyed.key i)
    (ts : Forest α) (a : List Nat) : Shadowed (mapAll f ts) a ↔ Shadowed ts a := by
  cases a with
  | nil => rfl
  | cons n a =>
    rw [Shadowed, Shadowed, mapAll_eq_map, List.getElem?_map, ← List.map_take]
    cases ts[n]? with
    | none => simp
    | some u => simp [shadowed_map hf, key_map hf, -List.map_take]

theorem getElem?_modifyChild [Keyed α] (k : Key) (f : Rose α → Rose α) (ts : Forest α) (n : Nat) :
    (modifyChild k f ts)[n]? =
      ts[n]?.map fun t => if t.key = k ∧ ∀ s ∈ ts.take n, s.key ≠ k then f t else t := by
  induction ts generalizing n with
  | nil => rfl
  | cons t ts ih =>
    rw [modifyChild]
    by_cases hk : t.key = k
    · cases n with
      | zero => simp [hk]
      | succ n => simp [hk]
    · cases n with
      | zero => simp [hk]
      | succ n => simp [hk, ih]

end Forest

/-! ## What a path reaches -/

namespace Outline

open Forest

variable {f : Item → Item} {base : Path} {ts : Forest Item}

/-- Changes the item that a path leads to from a tree, the tree itself if the path is empty. -/
def modifyBelow (f : Item → Item) (p : Path) (t : Rose Item) : Rose Item :=
  if p = [] then t.setValue f else t.setChildren (Forest.modify (setValue f) p)

theorem modify_cons (f : Item → Item) (k : Key) (p : Path) (ts : Forest Item) :
    Forest.modify (setValue f) (k :: p) ts = modifyChild k (modifyBelow f p) ts := by
  cases p with
  | nil => rfl
  | cons j p => rfl

/-- The path of an item below a tree begins with the path of the tree. -/
theorem path_of_valueAt? {j i : Item} {cs : Forest Item} (hl : Located j.path cs) {a : List Nat}
    (hi : (node j cs).valueAt? a = some i) : ∃ q, i.path = j.path ++ q := by
  cases a with
  | nil => exact ⟨[], by rw [← Option.some.inj hi]; simp⟩
  | cons n a =>
    obtain ⟨u, hu, hi⟩ := Option.bind_eq_some_iff.1 hi
    obtain ⟨t, -, q, hq⟩ := path_of_mem hl (value_mem_of_valueAt? (List.mem_of_getElem? hu) hi)
    exact ⟨t.key :: q, hq⟩

theorem located_of_getElem? (hl : Located base ts) {n : Nat} {j : Item} {cs : Forest Item}
    (hu : ts[n]? = some (node j cs)) : j.path = base ++ [j.key] ∧ Located j.path cs := by
  obtain ⟨pre, post, rfl⟩ := List.append_of_mem (List.mem_of_getElem? hu)
  obtain ⟨hj, hcs, -⟩ := located_cons.1 (located_append.1 hl).2
  exact ⟨hj, hj ▸ hcs⟩

/-- If a path reaches from a tree what it leads to, then so it does from the siblings of the tree,
unless one before it has its key. -/
theorem valueAt?_modify_of_below (hl : Located base ts) {k : Key} {p : Path} {n : Nat} {a : List Nat}
    {u : Rose Item} {i : Item} (hu : ts[n]? = some u) (hi : u.valueAt? a = some i)
    (below : (modifyBelow f p u).valueAt? a =
      some (if i.path = u.value.path ++ p ∧ ¬ u.Shadowed a then f i else i)) :
    Forest.valueAt? (Forest.modify (setValue f) (k :: p) ts) (n :: a) =
      some (if i.path = base ++ k :: p ∧ ¬ Forest.Shadowed ts (n :: a) then f i else i) := by
  obtain ⟨j, cs⟩ := u
  obtain ⟨hj, hcs⟩ := located_of_getElem? hl hu
  have hshadow : Forest.Shadowed ts (n :: a) ↔
      (∃ s ∈ ts.take n, s.key = j.key) ∨ (node j cs).Shadowed a := by
    rw [Forest.Shadowed, hu]
    simp [Rose.key, Keyed.key]
  rw [modify_cons, Forest.valueAt?, getElem?_modifyChild, hu, Option.map_some, Option.bind_some]
  have hkey : (node j cs).key = j.key := rfl
  rw [hkey]
  by_cases hfirst : j.key = k ∧ ∀ s ∈ ts.take n, s.key ≠ k
  · obtain ⟨rfl, hfirst⟩ := hfirst
    have hno : ¬ ∃ s ∈ ts.take n, s.key = j.key := by
      rintro ⟨s, hs, he⟩
      exact hfirst s hs he
    have hpath : base ++ j.key :: p = j.path ++ p := by rw [hj, List.append_assoc]; rfl
    rw [if_pos ⟨rfl, hfirst⟩, below, value_node, hpath]
    simp only [hshadow, hno, false_or]
  · -- the path leads to another sibling, or nowhere
    have hother : ¬ (i.path = base ++ k :: p ∧ ¬ Forest.Shadowed ts (n :: a)) := by
      rintro ⟨hp, hs⟩
      obtain ⟨q, hq⟩ := path_of_valueAt? hcs hi
      rw [hp, hj, List.append_assoc] at hq
      have hk : k = j.key := (List.cons.inj (List.append_cancel_left hq)).1
      exact hfirst ⟨hk.symm, fun s hs' he => hs (hshadow.2 (.inl ⟨s, hs', he.trans hk⟩))⟩
    rw [if_neg hfirst, if_neg hother, hi]

theorem valueAt?_modifyBelow {j i : Item} {cs : Forest Item} (hl : Located j.path cs) {a : List Nat}
    (hi : (node j cs).valueAt? a = some i) (p : Path) :
    (modifyBelow f p (node j cs)).valueAt? a =
      some (if i.path = j.path ++ p ∧ ¬ (node j cs).Shadowed a then f i else i) := by
  induction a generalizing j cs p with
  | nil =>
    obtain rfl : j = i := Option.some.inj hi
    cases p with
    | nil => simp [modifyBelow, Rose.valueAt?, Rose.Shadowed]
    | cons k p => simp [modifyBelow, Rose.valueAt?]
  | cons n a ih =>
    obtain ⟨u, hu, hi⟩ := Option.bind_eq_some_iff.1 hi
    rw [children_node] at hu
    have hmem : i ∈ valuesAll cs := value_mem_of_valueAt? (List.mem_of_getElem? hu) hi
    cases p with
    | nil =>
      have hne : i.path ≠ j.path ++ [] := by
        rw [List.append_nil]
        exact path_ne_base hl hmem
      rw [if_neg fun h => hne h.1]
      simp [modifyBelow, Rose.valueAt?, hu, hi]
    | cons k p =>
      have hbelow : (modifyBelow f p u).valueAt? a =
          some (if i.path = u.value.path ++ p ∧ ¬ u.Shadowed a then f i else i) := by
        obtain ⟨l, ds⟩ := u
        exact ih (located_of_getElem? hl hu).2 hi p
      exact valueAt?_modify_of_below hl hu hi hbelow

/-- A change at a path is a change of the item that carries the path and is not shadowed. -/
theorem valueAt?_modify (hl : Located base ts) {a : List Nat} {i : Item}
    (hi : Forest.valueAt? ts a = some i) (p : Path) :
    Forest.valueAt? (Forest.modify (setValue f) p ts) a =
      some (if i.path = base ++ p ∧ ¬ Forest.Shadowed ts a then f i else i) := by
  cases a with
  | nil => cases hi
  | cons n a =>
    obtain ⟨u, hu, hia⟩ := Option.bind_eq_some_iff.1 hi
    cases p with
    | nil =>
      have hmem : i ∈ valuesAll ts := value_mem_of_valueAt? (List.mem_of_getElem? hu) hia
      have hne : i.path ≠ base ++ [] := by
        rw [List.append_nil]
        exact path_ne_base hl hmem
      rw [if_neg fun h => hne h.1]
      exact hi
    | cons k p =>
      refine valueAt?_modify_of_below hl hu hia ?_
      obtain ⟨j, cs⟩ := u
      exact valueAt?_modifyBelow (located_of_getElem? hl hu).2 hia p

end Outline

end SymbolOutline
