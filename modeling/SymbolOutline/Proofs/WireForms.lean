import Mathlib.Data.List.Forall2
import Mathlib.Tactic.Push
import SymbolOutline.Proofs.Rose
import SymbolOutline.Wire

/-
Wire forms tell everything apart (`same_wire_iff`).

The text of a key begins with its kind, which has no dash, so the first dash ends it; only custom kinds
begin with their common name, and their numbers tell them apart. Objects are read member by member, so
that the order of members does not matter. Values of properties are sent without their sort: a text and a
severity may look the same, but never as values of one property.
-/

namespace SymbolOutline

open Rose

/-! ## Texts of keys -/

namespace Kind

theorem mem_named {k : Kind} (h : ∀ code, k ≠ .custom code) : k ∈ named :=
  List.mem_of_getElem? (named_getElem?_rank h)

/-- Named kinds have different texts, without a dash, that do not begin like those of custom kinds. -/
theorem text_named : ∀ j ∈ named, '-' ∉ j.text.toList ∧ ¬ "Custom".toList <+: j.text.toList ∧
    ∀ k ∈ named, j.text = k.text → j = k := by
  decide

theorem toList_text_custom (code : UInt32) :
    (custom code).text.toList = "Custom".toList ++ Nat.toDigits 10 code.toNat := by
  rw [text, String.toList_append, Nat.toString_eq_repr, Nat.toList_repr]

theorem dash_notMem_text (k : Kind) : '-' ∉ k.text.toList := by
  by_cases h : ∀ code, k ≠ .custom code
  · exact (text_named k (mem_named h)).1
  · push Not at h
    obtain ⟨code, rfl⟩ := h
    rw [toList_text_custom, List.mem_append, not_or]
    refine ⟨by decide, fun hmem => ?_⟩
    have := Nat.isDigit_of_mem_toDigits (by decide) (by decide) hmem
    revert this
    decide

theorem eq_of_text_eq {j k : Kind} (h : j.text = k.text) : j = k := by
  have begins : ∀ code, "Custom".toList <+: (custom code).text.toList := fun code =>
    ⟨_, (toList_text_custom code).symm⟩
  by_cases hj : ∀ code, j ≠ .custom code <;> by_cases hk : ∀ code, k ≠ .custom code
  · exact (text_named j (mem_named hj)).2.2 k (mem_named hk) h
  · push Not at hk
    obtain ⟨code, rfl⟩ := hk
    exact absurd (h ▸ begins code) (text_named j (mem_named hj)).2.1
  · push Not at hj
    obtain ⟨code, rfl⟩ := hj
    exact absurd (h ▸ begins code) (text_named k (mem_named hk)).2.1
  · push Not at hj hk
    obtain ⟨m, rfl⟩ := hj
    obtain ⟨n, rfl⟩ := hk
    have hrepr : m.toNat.repr = n.toNat.repr := (String.append_right_inj _).1 h
    -- the digits say which number they are of
    have hdigits := congrArg (fun s : String => Nat.ofDigitChars 10 s.toList 0) hrepr
    simp only [Nat.toList_repr, Nat.ofDigitChars_ten_toDigits] at hdigits
    rw [UInt32.toNat_inj.1 hdigits]

end Kind

/-- The first dash in the text of a key stands behind the kind. -/
theorem Key.takeWhile_text (k : Key) : k.text.toList.takeWhile (· ≠ '-') = k.kind.text.toList := by
  have hkind : ∀ c ∈ k.kind.text.toList, decide (c ≠ '-') = true := fun c hc =>
    decide_eq_true fun h => k.kind.dash_notMem_text (h ▸ hc)
  have hdash : "-".toList = ['-'] := rfl
  rw [Key.text, String.toList_append, String.toList_append, List.append_assoc, hdash,
    List.takeWhile_append_of_pos hkind]
  simp

theorem Key.eq_of_text_eq {j k : Key} (h : j.text = k.text) : j = k := by
  have hkind : j.kind = k.kind := by
    refine Kind.eq_of_text_eq (String.toList_inj.1 ?_)
    rw [← j.takeWhile_text, ← k.takeWhile_text, h]
  obtain ⟨kind, name⟩ := j
  obtain rfl : kind = k.kind := hkind
  exact congrArg (Key.mk k.kind) ((String.append_right_inj _).1 h)

/-! ## The same value -/

namespace Json

/-- Two values are the same, in whatever order objects have their members. -/
inductive Same : Json → Json → Prop where
  | null : Same null null
  | bool (b : Bool) : Same (bool b) (bool b)
  | int (n : Int) : Same (int n) (int n)
  | real (x : Float) : Same (real x) (real x)
  | str (s : String) : Same (str s) (str s)
  | arr {vs ws : List Json} : List.Forall₂ Same vs ws → Same (arr vs) (arr ws)
  | obj {ms ns : List (String × Json)} :
    (∀ name, Option.Rel Same ((obj ms).field? name) ((obj ns).field? name)) → Same (obj ms) (obj ns)

variable {v w : Json}

@[simp] theorem same_bool {a b : Bool} : Same (bool a) (bool b) ↔ a = b :=
  ⟨fun h => by cases h; rfl, fun h => h ▸ .bool a⟩

@[simp] theorem same_int {m n : Int} : Same (int m) (int n) ↔ m = n :=
  ⟨fun h => by cases h; rfl, fun h => h ▸ .int m⟩

@[simp] theorem same_nat {m n : Nat} : Same (nat m) (nat n) ↔ m = n := by
  rw [nat, nat, same_int, Int.natCast_inj]

@[simp] theorem same_str {s t : String} : Same (str s) (str t) ↔ s = t :=
  ⟨fun h => by cases h; rfl, fun h => h ▸ .str s⟩

@[simp] theorem same_null_left : Same null v ↔ v = null :=
  ⟨fun h => by cases h; rfl, fun h => h ▸ .null⟩

@[simp] theorem same_null_right : Same v null ↔ v = null :=
  ⟨fun h => by cases h; rfl, fun h => h ▸ .null⟩

theorem same_arr {vs ws : List Json} : Same (arr vs) (arr ws) ↔ List.Forall₂ Same vs ws :=
  ⟨fun h => by cases h; assumption, .arr⟩

@[simp] theorem same_arr_nil {ws : List Json} : Same (arr []) (arr ws) ↔ ws = [] := by
  rw [same_arr, List.forall₂_nil_left_iff]

@[simp] theorem same_arr_cons_nil {vs : List Json} : ¬ Same (arr (v :: vs)) (arr []) := by
  simp [same_arr]

@[simp] theorem same_arr_cons {vs ws : List Json} :
    Same (arr (v :: vs)) (arr (w :: ws)) ↔ Same v w ∧ Same (arr vs) (arr ws) := by
  simp [same_arr]

/-! ### Objects, lists and what may be missing -/

theorem field?_cons (name key : String) (v : Json) (ms : List (String × Json)) :
    (obj ((name, v) :: ms)).field? key =
      ((obj ms).field? key).or (if name = key then some v else Option.none) := by
  simp only [field?, List.reverse_cons, List.find?_append, Option.map_or]
  split <;> simp_all

theorem field?_eq_none {name : String} {ms : List (String × Json)} (h : name ∉ ms.map Prod.fst) :
    (obj ms).field? name = none := by
  rw [field?, Option.map_eq_none_iff, List.find?_eq_none]
  intro m hm
  simp only [decide_eq_true_eq]
  rintro rfl
  exact h (List.mem_map_of_mem (List.mem_reverse.1 hm))

theorem same_obj {ms ns : List (String × Json)} : Same (obj ms) (obj ns) ↔
    ∀ name, Option.Rel Same ((obj ms).field? name) ((obj ns).field? name) :=
  ⟨fun h => by cases h; assumption, .obj⟩

@[simp] theorem same_obj_nil : Same (obj []) (obj []) := .obj fun _ => .none

/-- Objects that begin with a member of one name, which no other member has, are compared there and in the
rest. -/
@[simp] theorem same_obj_cons {name : String} {ms ns : List (String × Json)}
    (hm : name ∉ ms.map Prod.fst) (hn : name ∉ ns.map Prod.fst) :
    Same (obj ((name, v) :: ms)) (obj ((name, w) :: ns)) ↔ Same v w ∧ Same (obj ms) (obj ns) := by
  have hm := field?_eq_none hm
  have hn := field?_eq_none hn
  simp only [same_obj, field?_cons]
  constructor
  · refine fun h => ⟨by simpa [hm, hn] using h name, fun key => ?_⟩
    by_cases hk : name = key
    · rw [← hk, hm, hn]
      exact .none
    · simpa [hk] using h key
  · rintro ⟨hvw, h⟩ key
    by_cases hk : name = key
    · simpa [← hk, hm, hn] using hvw
    · simpa [hk] using h key

theorem same_list {α : Type} {f : α → Json} {xs ys : List α}
    (h : ∀ x ∈ xs, ∀ y ∈ ys, Same (f x) (f y) ↔ x = y) : Same (list f xs) (list f ys) ↔ xs = ys := by
  unfold list
  induction xs generalizing ys with
  | nil => simp
  | cons x xs ih =>
    cases ys with
    | nil => simp
    | cons y ys =>
      have hfirst := h x (List.mem_cons_self ..) y (List.mem_cons_self ..)
      have hrest := @ih ys fun a ha b hb => h a (List.mem_cons_of_mem _ ha) b (List.mem_cons_of_mem _ hb)
      rw [List.map_cons, List.map_cons, same_arr_cons, hfirst, hrest, List.cons.injEq]

/-- What is missing is told from what is there if nothing is written as `null`. -/
theorem same_option {α : Type} {f : α → Json} (h : ∀ x y, Same (f x) (f y) ↔ x = y)
    (hnull : ∀ x, f x ≠ null) {a b : Option α} : Same (option f a) (option f b) ↔ a = b := by
  cases a <;> cases b <;> simp [option, h, hnull]

end Json

/-! ## Positions, spans, keys and tallies -/

@[simp] theorem Position.same_wire {p q : Position} : Json.Same p.wire q.wire ↔ p = q := by
  cases p
  cases q
  simp [wire]

@[simp] theorem Span.same_wire {s t : Span} : Json.Same s.wire t.wire ↔ s = t := by
  cases s
  cases t
  simp [wire]

@[simp] theorem Key.same_wire {j k : Key} : Json.Same j.wire k.wire ↔ j = k := by
  rw [wire, wire, Json.same_str]
  exact ⟨eq_of_text_eq, fun h => h ▸ rfl⟩

@[simp] theorem Key.same_wire_option {j k : Option Key} :
    Json.Same (.option Key.wire j) (.option Key.wire k) ↔ j = k :=
  Json.same_option (fun _ _ => same_wire) fun k => by simp [wire]

@[simp] theorem Key.same_wire_list {js ks : List Key} :
    Json.Same (.list Key.wire js) (.list Key.wire ks) ↔ js = ks :=
  Json.same_list fun _ _ _ _ => same_wire

@[simp] theorem Path.same_wire {p q : Path} : Json.Same (Path.wire p) (Path.wire q) ↔ p = q :=
  Key.same_wire_list

@[simp] theorem Tally.same_wire {t u : Tally} : Json.Same t.wire u.wire ↔ t = u := by
  cases t
  cases u
  simp [wire, UInt32.toNat_inj]

/-! ## Entries -/

theorem Item.same_wire {i j : Item} {vs ws : List Json} :
    Json.Same (i.wire vs) (j.wire ws) ↔ i = j ∧ Json.Same (.arr vs) (.arr ws) := by
  obtain ⟨⟨kind, name⟩, detail, range, selection, expanded, inView, focused, tally, path⟩ := i
  obtain ⟨⟨kind', name'⟩, detail', range', selection', expanded', inView', focused', tally', path'⟩ := j
  have hkind : kind.text = kind'.text ↔ kind = kind' := ⟨Kind.eq_of_text_eq, fun h => h ▸ rfl⟩
  simp [wire, hkind, and_assoc, and_comm, and_left_comm]

@[simp] theorem Outline.same_wireAll {ss ts : Forest Item} :
    Json.Same (.arr (wireAll ss)) (.arr (wireAll ts)) ↔ ss = ts := by
  induction ss using induct_forest generalizing ts with
  | nil => cases ts <;> simp [wireAll]
  | cons i cs ss ihc ih =>
    cases ts with
    | nil => simp [wireAll]
    | cons t ts =>
      obtain ⟨j, ds⟩ := t
      simp only [wireAll, wireOf, Json.same_arr_cons, Item.same_wire, ihc, ih, List.cons.injEq,
        Rose.node.injEq]

/-! ## Changes -/

/-- A change that updates a property gives it a value of its type. -/
def Change.Typed : Change → Prop
  | .update _ property value => property.Takes value
  | _ => True

/-- All changes of a message give properties values of their types. -/
def Message.Typed : Message → Prop
  | .update changes => ∀ c ∈ changes, c.Typed
  | _ => True

@[simp] theorem Severity.same_wire_option {s t : Option Severity} :
    Json.Same (.option (fun s => .str s.name) s) (.option (fun s => .str s.name) t) ↔ s = t :=
  Json.same_option (fun s t => by cases s <;> cases t <;> simp [name]) fun s => by simp

@[simp] theorem Property.name_inj {p q : Property} : p.name = q.name ↔ p = q := by
  cases p <;> cases q <;> simp [name]

/-- Of one property, different values look different. -/
theorem PropertyValue.same_wire {p : Property} {v w : PropertyValue} (hv : p.Takes v)
    (hw : p.Takes w) : Json.Same v.wire w.wire ↔ v = w := by
  cases p <;> cases v <;> cases hv <;> cases w <;> cases hw <;> simp [wire]

/-- Without the property they need not. -/
example : Json.Same (PropertyValue.text "error").wire (PropertyValue.severity (some .error)).wire :=
  .str "error"

theorem Change.same_wire {c d : Change} (hc : c.Typed) (hd : d.Typed) :
    Json.Same c.wire d.wire ↔ c = d := by
  cases c <;> cases d
  case update.update p property v q property' w =>
    have hvalue : property = property' → (Json.Same v.wire w.wire ↔ v = w) := by
      rintro rfl
      exact PropertyValue.same_wire hc hd
    simpa [wire] using fun _ => hvalue
  all_goals simp [wire]

/-! ## Messages -/

@[simp] theorem Absence.name_inj {a b : Absence} : a.name = b.name ↔ a = b := by
  cases a <;> cases b <;> simp [name]

@[simp] theorem ScrollTarget.name_inj {a b : ScrollTarget} : a.name = b.name ↔ a = b := by
  cases a <;> cases b <;> simp [name]

@[simp] theorem Json.same_nat_option {m n : Option Nat} :
    Same (option nat m) (option nat n) ↔ m = n :=
  same_option (fun _ _ => same_nat) fun n => by simp [nat]

theorem Message.same_wire {m n : Message} (hm : m.Typed) (hn : n.Typed) :
    Json.Same m.wire n.wire ↔ m = n := by
  cases m <;> cases n
  case update.update cs ds =>
    have hchanges : Json.Same (.list Change.wire cs) (.list Change.wire ds) ↔ cs = ds :=
      Json.same_list fun c hc d hd => Change.same_wire (hm c hc) (hn d hd)
    simpa [wire, sort] using hchanges
  all_goals simp [wire, sort]

/-- Keys with one text, paths with one wire form and messages with one wire form are the same. -/
theorem same_wire_iff :
    (∀ j k : Key, j.text = k.text ↔ j = k) ∧
      (∀ p q : Path, Json.Same (Path.wire p) (Path.wire q) ↔ p = q) ∧
      ∀ m n : Message, m.Typed → n.Typed → (Json.Same m.wire n.wire ↔ m = n) :=
  ⟨fun _ _ => ⟨Key.eq_of_text_eq, fun h => h ▸ rfl⟩, fun _ _ => Path.same_wire,
    fun _ _ hm hn => Message.same_wire hm hn⟩

/-- A dash or a digit more in front of a name makes another path, and a detail is not taken for a badge. -/
theorem same_wire_iff_alike :
    let detail : Message := .update [.update [⟨.custom 1, "1-f"⟩] .detail (.text "error")]
    let badge : Message := .update [.update [⟨.custom 11, "f"⟩] .severity (.severity (some .error))]
    detail.Typed ∧ badge.Typed ∧ (Json.Same detail.wire badge.wire ↔ detail = badge) := by
  intro detail badge
  have hdetail : detail.Typed := by simp [detail, Message.Typed, Change.Typed, Property.Takes]
  have hbadge : badge.Typed := by simp [badge, Message.Typed, Change.Typed, Property.Takes]
  exact ⟨hdetail, hbadge, same_wire_iff.2.2 detail badge hdetail hbadge⟩

end SymbolOutline
