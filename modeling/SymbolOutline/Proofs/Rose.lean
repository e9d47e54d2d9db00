import SymbolOutline.Rose

/-
Induction on forests, the values of a forest and mapped forests. `Rose.induct_forest` splits a forest
into its first value, what is below it and what is beside it, so that a fact about forests needs one
induction and no companion about trees.
-/

namespace SymbolOutline.Rose

variable {α β γ : Type}

/-- Induction on forests: over what is below the first value and over what is beside it. -/
theorem induct_forest {P : Forest α → Prop} (nil : P [])
    (cons : ∀ a cs ts, P cs → P ts → P (node a cs :: ts)) (ts : Forest α) : P ts := by
  have beside : ∀ ts : Forest α, (∀ t ∈ ts, P t.children) → P ts := by
    intro ts
    induction ts with
    | nil => exact fun _ => nil
    | cons t ts ih =>
      intro h
      obtain ⟨a, cs⟩ := t
      exact cons a cs ts (h _ (List.mem_cons_self ..)) (ih fun t ht => h t (List.mem_cons_of_mem _ ht))
  exact beside ts fun t _ => induct (P := fun t => P t.children) (fun _ cs h => beside cs h) t

/-! ## Values and mapped forests -/

@[simp] theorem valuesAll_nil : valuesAll ([] : Forest α) = [] := rfl

theorem valuesAll_cons (a : α) (cs ts : Forest α) :
    valuesAll (node a cs :: ts) = a :: (valuesAll cs ++ valuesAll ts) := rfl

theorem valuesAll_append (ss ts : Forest α) :
    valuesAll (ss ++ ts) = valuesAll ss ++ valuesAll ts := by
  induction ss with
  | nil => rfl
  | cons s ss ih => rw [List.cons_append, valuesAll, valuesAll, ih, List.append_assoc]

theorem value_mem_valuesAll {t : Rose α} {ts : Forest α} (h : t ∈ ts) : t.value ∈ valuesAll ts := by
  obtain ⟨pre, post, rfl⟩ := List.append_of_mem h
  cases t
  simp [valuesAll_append, valuesAll_cons]

theorem mem_valuesAll_children {t : Rose α} {ts : Forest α} (h : t ∈ ts) {a : α}
    (ha : a ∈ valuesAll t.children) : a ∈ valuesAll ts := by
  obtain ⟨pre, post, rfl⟩ := List.append_of_mem h
  cases t
  simp only [children_node] at ha
  simp [valuesAll_append, valuesAll_cons, ha]

@[simp] theorem mapAll_nil (f : α → β) : mapAll f [] = [] := rfl

theorem mapAll_cons (f : α → β) (t : Rose α) (ts : Forest α) :
    mapAll f (t :: ts) = t.map f :: mapAll f ts := rfl

theorem map_node (f : α → β) (a : α) (cs : Forest α) :
    (node a cs).map f = node (f a) (mapAll f cs) := rfl

@[simp] theorem children_map (f : α → β) (t : Rose α) :
    (t.map f).children = mapAll f t.children := by cases t; rfl

theorem mapAll_append (f : α → β) (ss ts : Forest α) :
    mapAll f (ss ++ ts) = mapAll f ss ++ mapAll f ts := by
  rw [mapAll_eq_map, mapAll_eq_map, mapAll_eq_map, List.map_append]

theorem mapAll_mapAll (g : β → γ) (f : α → β) (ts : Forest α) :
    mapAll g (mapAll f ts) = mapAll (g ∘ f) ts := by
  induction ts using induct_forest with
  | nil => rfl
  | cons a cs ts ihc ih =>
    rw [mapAll_cons, mapAll_cons, mapAll_cons, map_node, map_node, map_node, ihc, ih]
    rfl

theorem valuesAll_mapAll (f : α → β) (ts : Forest α) :
    valuesAll (mapAll f ts) = (valuesAll ts).map f := by
  induction ts using induct_forest with
  | nil => rfl
  | cons a cs ts ihc ih =>
    rw [mapAll_cons, map_node, valuesAll_cons, valuesAll_cons, ihc, ih, List.map_cons,
      List.map_append]

theorem mapAll_congr {f g : α → β} {ts : Forest α} (h : ∀ a ∈ valuesAll ts, f a = g a) :
    mapAll f ts = mapAll g ts := by
  induction ts using induct_forest with
  | nil => rfl
  | cons a cs ts ihc ih =>
    simp only [valuesAll_cons, List.mem_cons, List.mem_append] at h
    rw [mapAll_cons, mapAll_cons, map_node, map_node, h a (.inl rfl),
      ihc fun b hb => h b (.inr (.inl hb)), ih fun b hb => h b (.inr (.inr hb))]

theorem mapAll_eq_self {f : α → α} {ts : Forest α} (h : ∀ a ∈ valuesAll ts, f a = a) :
    mapAll f ts = ts := by
  induction ts using induct_forest with
  | nil => rfl
  | cons a cs ts ihc ih =>
    simp only [valuesAll_cons, List.mem_cons, List.mem_append] at h
    rw [mapAll_cons, map_node, h a (.inl rfl), ihc fun b hb => h b (.inr (.inl hb)),
      ih fun b hb => h b (.inr (.inr hb))]

end SymbolOutline.Rose
