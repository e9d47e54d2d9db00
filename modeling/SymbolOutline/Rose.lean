/-
Trees with any number of children, and forests of them. A forest is a list of trees; functions on
trees come in pairs, one for a tree and one for a forest. The theory of an operation starts from
`Rose.induct`, which gives the induction hypothesis for every child at once.
-/

namespace SymbolOutline

/-- A tree: a value and the trees below it. -/
inductive Rose (α : Type) : Type
  | node (value : α) (children : List (Rose α))

/-- Trees side by side. -/
abbrev Forest (α : Type) := List (Rose α)

namespace Rose

variable {α β : Type}

/-- The value at the top of a tree. -/
def value : Rose α → α
  | node a _ => a

/-- The trees right below the top. -/
def children : Rose α → Forest α
  | node _ ts => ts

@[simp] theorem value_node (a : α) (ts : Forest α) : (node a ts).value = a := rfl

@[simp] theorem children_node (a : α) (ts : Forest α) : (node a ts).children = ts := rfl

/-- A tree with another value at the top. -/
def setValue (f : α → α) : Rose α → Rose α
  | node a ts => node (f a) ts

/-- A tree with other trees below the top. -/
def setChildren (f : Forest α → Forest α) : Rose α → Rose α
  | node a ts => node a (f ts)

@[simp] theorem setValue_node (f : α → α) (a : α) (ts : Forest α) :
    (node a ts).setValue f = node (f a) ts := rfl

@[simp] theorem setChildren_node (f : Forest α → Forest α) (a : α) (ts : Forest α) :
    (node a ts).setChildren f = node a (f ts) := rfl

mutual
/-- Induction on trees: a property of all children carries over to the tree. -/
theorem induct {P : Rose α → Prop} (h : ∀ a ts, (∀ t ∈ ts, P t) → P (node a ts)) :
    (t : Rose α) → P t
  | node a ts => h a ts (induct_all h ts)
/-- Induction on trees, stated for the members of a forest. -/
theorem induct_all {P : Rose α → Prop} (h : ∀ a ts, (∀ t ∈ ts, P t) → P (node a ts)) :
    (ts : Forest α) → ∀ t ∈ ts, P t
  | [] => fun _ ht => absurd ht List.not_mem_nil
  | s :: ss => fun t ht => by
    rcases List.mem_cons.1 ht with e | ht
    · exact e ▸ induct h s
    · exact induct_all h ss t ht
end

mutual
/-- Applies a function to every value of a tree. -/
def map (f : α → β) : Rose α → Rose β
  | node a ts => node (f a) (mapAll f ts)
/-- Applies a function to every value of a forest. -/
def mapAll (f : α → β) : Forest α → Forest β
  | [] => []
  | t :: ts => t.map f :: mapAll f ts
end

theorem mapAll_eq_map (f : α → β) (ts : Forest α) : mapAll f ts = List.map (map f) ts := by
  induction ts with
  | nil => rfl
  | cons t ts ih => rw [mapAll, ih, List.map_cons]

mutual
/-- The number of values in a tree. -/
def size : Rose α → Nat
  | node _ ts => sizeAll ts + 1
/-- The number of values in a forest. -/
def sizeAll : Forest α → Nat
  | [] => 0
  | t :: ts => t.size + sizeAll ts
end

theorem size_pos (t : Rose α) : 0 < t.size := by
  cases t; rw [size]; omega

theorem sizeAll_children_lt (t : Rose α) : sizeAll t.children < t.size := by
  cases t; rw [size, children]; omega

theorem sizeAll_append (ss ts : Forest α) : sizeAll (ss ++ ts) = sizeAll ss + sizeAll ts := by
  induction ss with
  | nil => simp [sizeAll]
  | cons s ss ih => rw [List.cons_append, sizeAll, sizeAll, ih, Nat.add_assoc]

theorem sizeAll_perm {ss ts : Forest α} (h : ss.Perm ts) : sizeAll ss = sizeAll ts := by
  induction h with
  | nil => rfl
  | cons t _ ih => rw [sizeAll, sizeAll, ih]
  | swap s t ts => simp only [sizeAll, Nat.add_left_comm]
  | trans _ _ ih ih' => exact ih.trans ih'

theorem size_le_sizeAll {t : Rose α} {ts : Forest α} (h : t ∈ ts) : t.size ≤ sizeAll ts := by
  induction ts with
  | nil => exact absurd h List.not_mem_nil
  | cons s ss ih =>
    rw [sizeAll]
    rcases List.mem_cons.1 h with rfl | h
    · omega
    · have := ih h; omega

mutual
/-- The values of a tree, each before the values below it. -/
def values : Rose α → List α
  | node a ts => a :: valuesAll ts
/-- The values of a forest, each before the values below it. -/
def valuesAll : Forest α → List α
  | [] => []
  | t :: ts => t.values ++ valuesAll ts
end

mutual
/-- The number of levels of a tree. -/
def depth : Rose α → Nat
  | node _ ts => depthAll ts + 1
/-- The number of levels of a forest. -/
def depthAll : Forest α → Nat
  | [] => 0
  | t :: ts => max t.depth (depthAll ts)
end

mutual
/-- Equality of trees is decided value by value. -/
def decEq [DecidableEq α] : (s t : Rose α) → Decidable (s = t)
  | node a ss, node b ts =>
    if h : a = b then
      match decEqAll ss ts with
      | isTrue h' => isTrue (by rw [h, h'])
      | isFalse h' => isFalse (by intro e; cases e; exact h' rfl)
    else isFalse (by intro e; cases e; exact h rfl)
/-- Equality of forests is decided tree by tree. -/
def decEqAll [DecidableEq α] : (ss ts : Forest α) → Decidable (ss = ts)
  | [], [] => isTrue rfl
  | [], _ :: _ => isFalse (by simp)
  | _ :: _, [] => isFalse (by simp)
  | s :: ss, t :: ts =>
    match decEq s t, decEqAll ss ts with
    | isTrue h, isTrue h' => isTrue (by rw [h, h'])
    | isFalse h, _ => isFalse (by intro e; cases e; exact h rfl)
    | _, isFalse h => isFalse (by intro e; cases e; exact h rfl)
end

instance [DecidableEq α] : DecidableEq (Rose α) := decEq

end Rose

end SymbolOutline
