import SymbolOutline.Proofs.Paths
import SymbolOutline.View

/-
What changes do to rows. Changing an item of an outline is matched by changing its row
(`rows_modifyItem`). A run of updates, carried out on the rows of an outline whose siblings have
different keys, reaches each row with just those updates that name its path (`foldl_applyTo_updates`).
-/

namespace SymbolOutline

open Forest Rose

/-! ## Rows -/

@[simp] theorem Item.key_row (i : Item) : i.row.key = i.key := rfl

@[simp] theorem Row.key_set (r : Row) (property : Property) (value : PropertyValue) :
    (r.set property value).key = r.key := by
  cases property <;> cases value <;> rfl

@[simp] theorem rows_nil : rows [] = [] := rfl

theorem rows_cons (t : Rose Item) (ts : Forest Item) : rows (t :: ts) = t.map Item.row :: rows ts := rfl

theorem rows_append (ss ts : Forest Item) : rows (ss ++ ts) = rows ss ++ rows ts :=
  mapAll_append ..

@[simp] theorem key_map_row (t : Rose Item) : (t.map Item.row).key = t.key :=
  key_map (φ := Item.row) (fun _ => rfl) t

theorem map_key_rows (ts : Forest Item) : (rows ts).map Rose.key = ts.map Rose.key :=
  map_key_mapAll (φ := Item.row) (fun _ => rfl) ts

theorem rows_eq_nil_iff {ts : Forest Item} : rows ts = [] ↔ ts = [] := by
  unfold rows
  rw [mapAll_eq_map, List.map_eq_nil_iff]

/-- Changing an item shows as changing its row. -/
theorem rows_modifyItem {f : Item → Item} {g : Row → Row} (h : ∀ i, (f i).row = g i.row) (p : Path)
    (o : Outline) : rows (o.modifyItem f p) = Forest.modify (setValue g) p (rows o) :=
  (modify_mapAll (φ := Item.row) (fun _ => rfl) (fun t => by cases t; simp [map_node, h]) p o).symm

/-! ## Updates -/

/-- What becomes of the row at a path when a change is carried out that leaves the arrangement of
rows alone. -/
def Row.receive (p : Path) (r : Row) : Change → Row
  | .update q property value => if p = q then r.set property value else r
  | _ => r

@[simp] theorem Row.key_receive (p : Path) (r : Row) (c : Change) : (r.receive p c).key = r.key := by
  cases c with
  | update q property value =>
    simp only [Row.receive]
    split
    · exact key_set ..
    · rfl
  | _ => rfl

theorem Row.key_foldl_receive (p : Path) (r : Row) (cs : List Change) :
    (cs.foldl (Row.receive p) r).key = r.key := by
  induction cs generalizing r with
  | nil => rfl
  | cons c cs ih => rw [List.foldl_cons, ih, key_receive]

/-- Updates reach each row with those of them that name its path. -/
theorem View.foldl_applyTo_updates {o : Outline} (h : o.WellKeyed) {φ : Item → Row}
    (hφ : ∀ i, (φ i).key = i.key) {cs : List Change} (hc : ∀ c ∈ cs, c.isStructural = false) :
    cs.foldl View.applyTo (mapAll φ o) = mapAll (fun i => cs.foldl (Row.receive i.path) (φ i)) o := by
  -- the outline stays, and what the updates change is the function that gives its rows
  induction cs generalizing φ with
  | nil => rfl
  | cons c cs ih =>
    obtain ⟨p, property, value, rfl⟩ : ∃ p property value, c = .update p property value := by
      have := hc c (List.mem_cons_self ..)
      cases c with
      | update p property value => exact ⟨p, property, value, rfl⟩
      | _ => cases this
    have step : View.applyTo (mapAll φ o) (.update p property value) =
        mapAll (fun i => (φ i).receive i.path (.update p property value)) o :=
      Outline.modify_eq_mapAll hφ _ h.distinct h.located p
    rw [List.foldl_cons, step, ih (fun i => by rw [Row.key_receive, hφ])
      fun d hd => hc d (List.mem_cons_of_mem _ hd)]
    rfl

/-- Updates of one row, where its siblings were put. -/
theorem View.foldl_applyTo_put {p : Path} {pre post : Forest Row} {r : Row} {rs : Forest Row}
    (h : ∀ s ∈ pre, s.key ≠ r.key) {cs : List Change}
    (hc : ∀ c ∈ cs, ∃ property value, c = .update (p ++ [r.key]) property value) (roots : Forest Row) :
    cs.foldl View.applyTo (put p (pre ++ node r rs :: post) roots) =
      put p (pre ++ node (cs.foldl (Row.receive (p ++ [r.key])) r) rs :: post) roots := by
  induction cs generalizing r with
  | nil => rfl
  | cons c cs ih =>
    obtain ⟨property, value, rfl⟩ := hc c (List.mem_cons_self ..)
    have step : View.applyTo (put p (pre ++ node r rs :: post) roots)
        (.update (p ++ [r.key]) property value) =
        put p (pre ++ node (r.set property value) rs :: post) roots :=
      modify_put_concat _ p (t := node r rs) h roots
    rw [List.foldl_cons, step, List.foldl_cons]
    have hr : r.receive (p ++ [r.key]) (.update (p ++ [r.key]) property value) =
        r.set property value := if_pos rfl
    rw [hr]
    have hk := Row.key_set r property value
    rw [ih (by rwa [hk]) (by rw [hk]; exact fun d hd => hc d (List.mem_cons_of_mem _ hd)), hk]

/-! ## Other changes, where siblings were put -/

namespace View

variable {p : Path} {pre post : Forest Row}

theorem applyTo_insert (new : Forest Item) (h : ((pre ++ post).map Rose.key).Nodup)
    (roots : Forest Row) :
    applyTo (put p (pre ++ post) roots) (.insert p (post.head?.map Rose.key) new) =
      put p (pre ++ rows new ++ post) roots := by
  show modifyContainer _ p _ = _
  rw [modifyContainer_put, insertBefore_head? _ h]

theorem applyTo_delete (old : Forest Item) (h : ∀ s ∈ pre, ∀ t ∈ rows old, s.key ≠ t.key)
    (roots : Forest Row) :
    applyTo (put p (pre ++ rows old ++ post) roots) (.delete p (old.map Rose.key)) =
      put p (pre ++ post) roots := by
  show modifyContainer _ p _ = _
  rw [modifyContainer_put, ← map_key_rows, foldl_removeChild h]

/-- A row that is moved goes where its siblings are told apart by the one in front of which it is
to stand. -/
theorem applyTo_move {l r : Forest Row} {t : Rose Row} (h : ((l ++ t :: r).map Rose.key).Nodup)
    (hlr : l ++ r = pre ++ post) (roots : Forest Row) :
    applyTo (put p (l ++ t :: r) roots) (.move p [t.key] (post.head?.map Rose.key)) =
      put p (pre ++ t :: post) roots := by
  rw [List.map_append, List.map_cons, List.nodup_append] at h
  have hl : ∀ s ∈ l, s.key ≠ t.key := fun s hs =>
    h.2.2 _ (List.mem_map_of_mem hs) _ (List.mem_cons_self ..)
  have hleft : ((l ++ r).map Rose.key).Nodup := by
    rw [List.map_append, List.nodup_append]
    exact ⟨h.1, (List.nodup_cons.1 h.2.1).2, fun a ha b hb => h.2.2 a ha b (List.mem_cons_of_mem _ hb)⟩
  rw [hlr] at hleft
  show modifyContainer _ p _ = _
  rw [modifyContainer_put, takeOut_singleton hl]
  simp only
  rw [hlr, insertBefore_head? [t] hleft]
  simp

end View

end SymbolOutline
