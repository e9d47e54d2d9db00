import Mathlib.Algebra.Group.Nat.Defs
import SymbolOutline.Lsp.Symbols
import SymbolOutline.Proofs.WireForms

/-
What the symbols in an answer are, whatever the answer is (`symbols_answered`).

An answer reports symbols (`Answered`): a list reports, in order, those of its items that have one of two
forms, a symbol with others below it (`Nests`) or one that comes by itself (`Flat`), and an item with
neither form reports nothing and leaves the others alone. The symbols are what is reported, and an answer
reports nothing else. Only of the number of a kind is something lost: what counts is its lowest 32 bits, so
that a greater number may be taken for that of a kind with a name.
-/

namespace SymbolOutline

open Rose

/-! ## Members of objects -/

/-- A value is an object in which a value is the last one with a name. -/
inductive Json.Has (name : String) : Json → Json → Prop
  | intro {pre post : List (String × Json)} {v : Json} :
    name ∉ post.map Prod.fst → Has name (.obj (pre ++ (name, v) :: post)) v

namespace Json

variable {name : String} {v w : Json}

theorem has_iff : v.Has name w ↔ v.field? name = some w := by
  constructor
  · rintro @⟨pre, post, _, h⟩
    have hpost : ∀ m ∈ post.reverse, ¬ decide (m.1 = name) = true := by
      simp only [List.mem_reverse, decide_eq_true_eq]
      rintro m hm rfl
      exact h (List.mem_map_of_mem hm)
    rw [field?, List.reverse_append, List.reverse_cons, List.append_assoc, List.find?_append,
      List.find?_eq_none.2 hpost]
    simp
  · intro h
    cases v with
    | obj ms =>
      obtain ⟨m, hm, rfl⟩ := Option.map_eq_some_iff.1 h
      obtain ⟨hname, behind, before, hms, hbehind⟩ := List.find?_eq_some_iff_append.1 hm
      obtain rfl : ms = before.reverse ++ m :: behind.reverse := by
        rw [← List.reverse_reverse ms, hms]
        simp
      obtain rfl : m.1 = name := by simpa using hname
      refine .intro fun hmem => ?_
      obtain ⟨n, hn, hsame⟩ := List.mem_map.1 hmem
      simpa [hsame] using hbehind n (List.mem_reverse.1 hn)
    | _ => cases h

theorem Has.unique {w' : Json} (h : v.Has name w) (h' : v.Has name w') : w = w' :=
  Option.some.inj ((has_iff.1 h).symm.trans (has_iff.1 h'))

/-- What an object has is smaller than the object. -/
theorem Has.sizeOf_lt (h : v.Has name w) : sizeOf w < sizeOf v := by
  cases h with
  | @intro pre post _ _ =>
    have hmem : (name, w) ∈ pre ++ (name, w) :: post := by simp
    have hsize := List.sizeOf_lt_of_mem hmem
    rw [Prod.mk.sizeOf_spec] at hsize
    rw [obj.sizeOf_spec]
    omega

theorem nat?_eq_some {n : Nat} : v.nat? = some n ↔ v = .nat n := by
  cases v <;> simp [nat?, nat]
  omega

theorem str?_eq_some {t : String} : v.str? = some t ↔ v = .str t := by
  cases v <;> simp [str?]

end Json

namespace Kind

/-! ## Numbers of kinds -/

/-- The kinds that a number may mean: one to twenty-six mean the kinds with names, in their order, and any
other number means a custom kind. -/
inductive Meant : Nat → Kind → Prop
  | named {n : Nat} {k : Kind} : numbered[n]? = some k → Meant (n + 1) k
  | custom {n : Nat} {code : UInt32} : n = 0 ∨ 26 < n → Meant n (custom code)

theorem custom_notMem_numbered (code : UInt32) : custom code ∉ numbered := by
  simp [numbered]

/-- A custom kind has the number that it is made of. -/
theorem eq_of_ofCode_eq_custom {code code' : UInt32} (h : ofCode code = custom code') : code' = code := by
  unfold ofCode at h
  split at h
  · exact (custom.inj h).symm
  · cases hk : numbered[code.toNat - 1]? with
    | none =>
      rw [hk, Option.getD_none] at h
      exact (custom.inj h).symm
    | some k =>
      rw [hk, Option.getD_some] at h
      exact absurd (h ▸ List.mem_of_getElem? hk) (custom_notMem_numbered code')

theorem meant_ofCode (code : UInt32) : Meant code.toNat (ofCode code) := by
  unfold ofCode
  split
  · rename_i h
    exact .custom (.inl (by rw [h]; rfl))
  · rename_i h
    have hpos : code.toNat ≠ 0 := fun h' => h (UInt32.toNat_inj.1 h')
    cases hk : numbered[code.toNat - 1]? with
    | none =>
      have hlast : numbered.length ≤ code.toNat - 1 := List.getElem?_eq_none_iff.1 hk
      have hlength : numbered.length = 26 := rfl
      exact .custom (by omega)
    | some k =>
      have hmeant := Meant.named hk
      rwa [Nat.sub_add_cancel (Nat.one_le_iff_ne_zero.2 hpos)] at hmeant

/-- Of what a number may mean, custom kinds are what is meant by numbers that no named kind has. -/
theorem Meant.custom_iff {n : Nat} {k : Kind} (h : Meant n k) :
    (∃ code, k = .custom code) ↔ n = 0 ∨ 26 < n := by
  cases h with
  | @named n _ hk =>
    have hnumber : n < numbered.length := (List.getElem?_eq_some_iff.1 hk).1
    have hlength : numbered.length = 26 := rfl
    constructor
    · rintro ⟨code, rfl⟩
      exact absurd (List.mem_of_getElem? hk) (custom_notMem_numbered code)
    · omega
  | custom h => simp [h]

/-- The lowest 32 bits of a number mean what the number means, unless it is too great and they are the
number of a kind with a name. -/
theorem meant_wrapped_iff {n : Nat} {k : Kind} (h : Meant (n % 2 ^ 32) k) :
    Meant n k ↔ n < 2 ^ 32 ∨ n % 2 ^ 32 = 0 ∨ 26 < n % 2 ^ 32 := by
  by_cases hn : n < 2 ^ 32
  · rw [Nat.mod_eq_of_lt hn] at h
    exact iff_of_true h (.inl hn)
  · have hgreat : n = 0 ∨ 26 < n := by omega
    rw [← h.custom_iff, or_iff_right hn]
    constructor
    · exact fun h => h.custom_iff.2 hgreat
    · rintro ⟨code, rfl⟩
      exact .custom hgreat

end Kind

namespace Span

theorem between_eq_iff {a b : Position} {s : Span} :
    between a b = s ↔ a = s.start ∧ b = s.stop ∨ a = s.stop ∧ b = s.start := by
  unfold between
  constructor
  · rintro rfl
    split
    · exact .inl ⟨rfl, rfl⟩
    · exact .inr ⟨rfl, rfl⟩
  · rintro (⟨rfl, rfl⟩ | ⟨rfl, rfl⟩)
    · rw [dif_pos s.ordered]
    · split
      · rename_i h
        obtain ⟨start, stop, hordered⟩ := s
        obtain rfl : stop = start := Position.le_antisymm h hordered
        rfl
      · rfl

end Span

namespace Lsp

/-! ## What an answer reports -/

/-- A value is a position: a line and a column. -/
structure SaysPosition (v : Json) (p : Position) : Prop where
  line : v.Has "line" (.nat p.line)
  column : v.Has "character" (.nat p.column)

/-- A value is a span: two end points, of which either may come first. -/
inductive SaysSpan (v : Json) (s : Span) : Prop
  | forward {a b : Json} : v.Has "start" a → v.Has "end" b → SaysPosition a s.start →
    SaysPosition b s.stop → SaysSpan v s
  | reversed {a b : Json} : v.Has "start" a → v.Has "end" b → SaysPosition a s.stop →
    SaysPosition b s.start → SaysSpan v s

/-- A symbol as it is reported, its kind by number. -/
structure Report where
  name : String
  code : Nat
  detail : Option String
  range : Span
  selection : Span

namespace Report

/-- The symbol that is made of a report. -/
def symbol (r : Report) : Symbol where
  key := ⟨.ofCode (.ofNat r.code), r.name⟩
  detail := r.detail
  range := r.range
  selection := r.selection

/-- A symbol is the one reported. -/
structure Means (r : Report) (s : Symbol) : Prop where
  name : s.key.name = r.name
  kind : Kind.Meant r.code s.key.kind
  detail : s.detail = r.detail
  range : s.range = r.range
  selection : s.selection = r.selection

end Report

/-- A value gives a symbol its name and the number of its kind, and its detail if there is one. -/
structure Introduces (detail : String) (v : Json) (r : Report) : Prop where
  name : v.Has "name" (.str r.name)
  kind : v.Has "kind" (.nat r.code)
  detail : ∀ t, r.detail = some t ↔ v.Has detail (.str t)

/-- A value reports a symbol that may have symbols below it. -/
structure Nests (v : Json) (r : Report) : Prop extends Introduces "detail" v r where
  range : ∃ w, v.Has "range" w ∧ SaysSpan w r.range
  selection : ∃ w, v.Has "selectionRange" w ∧ SaysSpan w r.selection

/-- A value reports a symbol that comes by itself. What contains it is its detail. -/
structure Flat (v : Json) (r : Report) : Prop extends Introduces "containerName" v r where
  range : ∃ l w, v.Has "location" l ∧ l.Has "range" w ∧ SaysSpan w r.range
  selection : r.selection = r.range

/-- The values below a value: those in its list of children, or none if it has no such list. -/
inductive Below (v : Json) : List Json → Prop
  | listed {ws : List Json} : v.Has "children" (.arr ws) → Below v ws
  | unlisted : (∀ ws, ¬ v.Has "children" (.arr ws)) → Below v []

/-- What the children in a list report. -/
inductive Nested : List Json → Forest Report → Prop
  | nil : Nested [] []
  | symbol {v : Json} {vs ws : List Json} {r : Report} {below rs : Forest Report} :
    Nests v r → Below v ws → Nested ws below → Nested vs rs → Nested (v :: vs) (node r below :: rs)
  | malformed {v : Json} {vs : List Json} {rs : Forest Report} :
    (∀ r, ¬ Nests v r) → Nested vs rs → Nested (v :: vs) rs

/-- What an item reports, the form with symbols below first. -/
inductive Reported (v : Json) : Forest Report → Prop
  | nested {ws : List Json} {r : Report} {below : Forest Report} :
    Nests v r → Below v ws → Nested ws below → Reported v [node r below]
  | flat {r : Report} : (∀ r, ¬ Nests v r) → Flat v r → Reported v [node r []]
  | malformed : (∀ r, ¬ Nests v r) → (∀ r, ¬ Flat v r) → Reported v []

/-- What the items in a list report, one after the other. -/
inductive Listed : List Json → Forest Report → Prop
  | nil : Listed [] []
  | cons {v : Json} {vs : List Json} {here rest : Forest Report} :
    Reported v here → Listed vs rest → Listed (v :: vs) (here ++ rest)

/-- What an answer reports: what the items of a list do, and nothing if it is no list. -/
inductive Answered : Json → Forest Report → Prop
  | list {vs : List Json} {rs : Forest Report} : Listed vs rs → Answered (.arr vs) rs
  | other {v : Json} : (∀ vs, v ≠ .arr vs) → Answered v []

/-! ## Positions, spans and texts -/

variable {v : Json}

theorem position?_eq_some {p : Position} : position? v = some p ↔ SaysPosition v p := by
  simp only [position?, Option.bind_eq_bind, Option.bind_eq_some_iff, Option.pure_def, Option.some.injEq,
    Json.nat?_eq_some, ← Json.has_iff]
  constructor
  · rintro ⟨_, hline, _, rfl, _, hcolumn, _, rfl, rfl⟩
    exact ⟨hline, hcolumn⟩
  · rintro ⟨hline, hcolumn⟩
    exact ⟨_, hline, _, rfl, _, hcolumn, _, rfl, rfl⟩

theorem span?_eq_some {s : Span} : span? v = some s ↔ SaysSpan v s := by
  simp only [span?, Option.bind_eq_bind, Option.bind_eq_some_iff, Option.pure_def, Option.some.injEq,
    position?_eq_some, ← Json.has_iff, Span.between_eq_iff]
  constructor
  · rintro ⟨a, ha, p, hp, b, hb, q, hq, ⟨rfl, rfl⟩ | ⟨rfl, rfl⟩⟩
    · exact .forward ha hb hp hq
    · exact .reversed ha hb hp hq
  · rintro (⟨ha, hb, hp, hq⟩ | ⟨ha, hb, hp, hq⟩)
    · exact ⟨_, ha, _, hp, _, hb, _, hq, .inl ⟨rfl, rfl⟩⟩
    · exact ⟨_, ha, _, hp, _, hb, _, hq, .inr ⟨rfl, rfl⟩⟩

theorem text?_eq_some {name t : String} : text? name v = some t ↔ v.Has name (.str t) := by
  simp only [text?, Option.bind_eq_some_iff, Json.str?_eq_some, ← Json.has_iff]
  exact ⟨fun ⟨_, h, hw⟩ => hw ▸ h, fun h => ⟨_, h, rfl⟩⟩

theorem text?_eq_iff {name : String} {d : Option String} :
    text? name v = d ↔ ∀ t, d = some t ↔ v.Has name (.str t) := by
  simp only [← text?_eq_some]
  exact ⟨fun h t => by rw [h], fun h => Option.ext fun t => (h t).symm⟩

/-! ## Symbols as they are reported -/

theorem key?_eq_some {k : Key} : key? v = some k ↔
    v.Has "name" (.str k.name) ∧ ∃ code, v.Has "kind" (.nat code) ∧ k.kind = .ofCode (.ofNat code) := by
  simp only [key?, Option.bind_eq_bind, Option.bind_eq_some_iff, Option.pure_def, Option.some.injEq,
    text?_eq_some, Json.nat?_eq_some, ← Json.has_iff]
  constructor
  · rintro ⟨_, hname, _, hkind, code, rfl, rfl⟩
    exact ⟨hname, code, hkind, rfl⟩
  · rintro ⟨hname, code, hkind, hk⟩
    exact ⟨_, hname, _, hkind, code, rfl, by rw [← hk]⟩

theorem nestedSymbol?_eq_some {s : Symbol} :
    nestedSymbol? v = some s ↔ ∃ r, Nests v r ∧ r.symbol = s := by
  simp only [nestedSymbol?, Option.bind_eq_bind, Option.bind_eq_some_iff, Option.pure_def,
    Option.some.injEq, key?_eq_some, span?_eq_some, ← Json.has_iff]
  constructor
  · rintro ⟨⟨kind, name⟩, ⟨hname, code, hkind, rfl⟩, a, ha, range, hrange, b, hb, span, hspan, rfl⟩
    exact ⟨⟨name, code, text? "detail" v, range, span⟩,
      ⟨⟨hname, hkind, text?_eq_iff.1 rfl⟩, ⟨a, ha, hrange⟩, ⟨b, hb, hspan⟩⟩, rfl⟩
  · rintro ⟨r, h, rfl⟩
    obtain ⟨a, ha, hrange⟩ := h.range
    obtain ⟨b, hb, hselection⟩ := h.selection
    exact ⟨_, ⟨h.name, r.code, h.kind, rfl⟩, a, ha, _, hrange, b, hb, _, hselection,
      by rw [text?_eq_iff.2 h.detail]; rfl⟩

theorem flatSymbol?_eq_some {s : Symbol} : flatSymbol? v = some s ↔ ∃ r, Flat v r ∧ r.symbol = s := by
  simp only [flatSymbol?, Option.bind_eq_bind, Option.bind_eq_some_iff, Option.pure_def,
    Option.some.injEq, key?_eq_some, span?_eq_some, ← Json.has_iff]
  constructor
  · rintro ⟨⟨kind, name⟩, ⟨hname, code, hkind, rfl⟩, a, ha, b, hb, range, hrange, rfl⟩
    exact ⟨⟨name, code, text? "containerName" v, range, range⟩,
      ⟨⟨hname, hkind, text?_eq_iff.1 rfl⟩, ⟨a, b, ha, hb, hrange⟩, rfl⟩, rfl⟩
  · rintro ⟨r, h, rfl⟩
    obtain ⟨a, b, ha, hb, hrange⟩ := h.range
    exact ⟨_, ⟨h.name, r.code, h.kind, rfl⟩, a, ha, b, hb, _, hrange,
      by rw [text?_eq_iff.2 h.detail, Report.symbol, h.selection]⟩

/-! ### A value reports one symbol at most -/

theorem SaysSpan.unique {s t : Span} (hs : SaysSpan v s) (ht : SaysSpan v t) : s = t :=
  Option.some.inj ((span?_eq_some.2 hs).symm.trans (span?_eq_some.2 ht))

theorem Introduces.unique {detail : String} {r r' : Report} (h : Introduces detail v r)
    (h' : Introduces detail v r') (hrange : r.range = r'.range) (hselection : r.selection = r'.selection) :
    r = r' := by
  have hname : r.name = r'.name := Json.str.inj (h.name.unique h'.name)
  have hcode : r.code = r'.code := Int.ofNat.inj (Json.int.inj (h.kind.unique h'.kind))
  have hdetail : r.detail = r'.detail := (text?_eq_iff.2 h.detail).symm.trans (text?_eq_iff.2 h'.detail)
  cases r
  cases r'
  simp_all

theorem Nests.unique {r r' : Report} (h : Nests v r) (h' : Nests v r') : r = r' := by
  obtain ⟨a, ha, hrange⟩ := h.range
  obtain ⟨b, hb, hselection⟩ := h.selection
  obtain ⟨a', ha', hrange'⟩ := h'.range
  obtain ⟨b', hb', hselection'⟩ := h'.selection
  cases ha.unique ha'
  cases hb.unique hb'
  exact h.toIntroduces.unique h'.toIntroduces (hrange.unique hrange') (hselection.unique hselection')

theorem Flat.unique {r r' : Report} (h : Flat v r) (h' : Flat v r') : r = r' := by
  obtain ⟨a, b, ha, hb, hrange⟩ := h.range
  obtain ⟨a', b', ha', hb', hrange'⟩ := h'.range
  cases ha.unique ha'
  cases hb.unique hb'
  have hsame := hrange.unique hrange'
  exact h.toIntroduces.unique h'.toIntroduces hsame (by rw [h.selection, h'.selection, hsame])

theorem Below.unique {ws ws' : List Json} (h : Below v ws) (h' : Below v ws') : ws = ws' := by
  cases h with
  | listed hws =>
    cases h' with
    | listed hws' => exact Json.arr.inj (hws.unique hws')
    | unlisted hnone => exact absurd hws (hnone ws)
  | unlisted hnone =>
    cases h' with
    | listed hws' => exact absurd hws' (hnone ws')
    | unlisted _ => rfl

theorem Nested.unique {vs : List Json} {rs rs' : Forest Report} (h : Nested vs rs) (h' : Nested vs rs') :
    rs = rs' := by
  induction h generalizing rs' with
  | nil => cases h'; rfl
  | symbol hr hws _ _ ihbelow ih =>
    cases h' with
    | symbol hr' hws' hbelow' hrest' =>
      cases hr.unique hr'
      cases hws.unique hws'
      rw [ihbelow hbelow', ih hrest']
    | malformed hnone _ => exact absurd hr (hnone _)
  | malformed hnone _ ih =>
    cases h' with
    | symbol hr' _ _ _ => exact absurd hr' (hnone _)
    | malformed _ hrest' => exact ih hrest'

theorem Reported.unique {rs rs' : Forest Report} (h : Reported v rs) (h' : Reported v rs') : rs = rs' := by
  cases h with
  | nested hr hws hbelow =>
    cases h' with
    | nested hr' hws' hbelow' =>
      cases hr.unique hr'
      cases hws.unique hws'
      rw [hbelow.unique hbelow']
    | flat hnone _ => exact absurd hr (hnone _)
    | malformed hnone _ => exact absurd hr (hnone _)
  | flat hnone hr =>
    cases h' with
    | nested hr' _ _ => exact absurd hr' (hnone _)
    | flat _ hr' => rw [hr.unique hr']
    | malformed _ hnone' => exact absurd hr (hnone' _)
  | malformed hnone hnone' =>
    cases h' with
    | nested hr' _ _ => exact absurd hr' (hnone _)
    | flat _ hr' => exact absurd hr' (hnone' _)
    | malformed _ _ => rfl

theorem Listed.unique {vs : List Json} {rs rs' : Forest Report} (h : Listed vs rs) (h' : Listed vs rs') :
    rs = rs' := by
  induction h generalizing rs' with
  | nil => cases h'; rfl
  | cons hhere _ ih =>
    cases h' with
    | cons hhere' hrest' => rw [hhere.unique hhere', ih hrest']

theorem Answered.unique {rs rs' : Forest Report} (h : Answered v rs) (h' : Answered v rs') : rs = rs' := by
  cases h with
  | list hrs =>
    cases h' with
    | list hrs' => exact hrs.unique hrs'
    | other hnone => exact absurd rfl (hnone _)
  | other hnone =>
    cases h' with
    | list _ => exact absurd rfl (hnone _)
    | other _ => rfl

/-! ## What is made of an answer -/

theorem exists_below (v : Json) : ∃ ws, Below v ws := by
  by_cases h : ∃ ws, v.Has "children" (.arr ws)
  · obtain ⟨ws, hws⟩ := h
    exact ⟨ws, .listed hws⟩
  · exact ⟨[], .unlisted (not_exists.1 h)⟩

theorem Below.sizeOf_le {ws : List Json} (h : Below v ws) : sizeOf ws ≤ sizeOf v := by
  cases h with
  | listed h =>
    have hsize := h.sizeOf_lt
    rw [Json.arr.sizeOf_spec] at hsize
    omega
  | unlisted _ => cases v <;> simp

/-- The symbols below an object are those in its last member that is called `children`. -/
theorem childrenOf_eq_field? (ms : List (String × Json)) :
    childrenOf ms = (((Json.obj ms).field? "children").map nestedIn).getD [] := by
  induction ms with
  | nil => rfl
  | cons m ms ih =>
    obtain ⟨name, w⟩ := m
    have hlater : (ms.any fun m => m.1 = "children") = ((Json.obj ms).field? "children").isSome := by
      rw [Json.field?, Option.isSome_map, List.isSome_find?, List.any_reverse]
    rw [childrenOf, Json.field?_cons, hlater]
    cases hfield : (Json.obj ms).field? "children" with
    | none =>
      rw [hfield] at ih
      by_cases hname : name = "children" <;> simp [hname, ih]
    | some u => simp [ih, hfield]

theorem childrenOf_eq {ms : List (String × Json)} {ws : List Json} (h : Below (.obj ms) ws) :
    childrenOf ms = nestedAll ws := by
  rw [childrenOf_eq_field?]
  cases h with
  | listed hws =>
    rw [Json.has_iff.1 hws]
    rfl
  | unlisted hnone =>
    cases hfield : (Json.obj ms).field? "children" with
    | none => rfl
    | some u =>
      cases u with
      | arr ws => exact absurd (Json.has_iff.2 hfield) (hnone ws)
      | _ => rfl

theorem nested_of_nests {r : Report} {ws : List Json} (h : Nests v r) (hws : Below v ws) :
    nested v = [node r.symbol (nestedAll ws)] := by
  have hsymbol := nestedSymbol?_eq_some.2 ⟨r, h, rfl⟩
  cases v with
  | obj ms => rw [nested, hsymbol, childrenOf_eq hws]
  | _ => cases h.name

theorem nested_of_malformed (h : ∀ r, ¬ Nests v r) : nested v = [] := by
  have hsymbol : nestedSymbol? v = none := Option.eq_none_iff_forall_ne_some.2 fun s hs =>
    have ⟨r, hr, _⟩ := nestedSymbol?_eq_some.1 hs
    h r hr
  cases v with
  | obj ms => rw [nested, hsymbol]
  | _ => rfl

theorem exists_nested : (vs : List Json) → ∃ rs, Nested vs rs ∧ nestedAll vs = mapAll Report.symbol rs
  | [] => ⟨[], .nil, rfl⟩
  | v :: vs => by
    obtain ⟨rs, hrs, hrest⟩ := exists_nested vs
    by_cases h : ∃ r, Nests v r
    · obtain ⟨r, hr⟩ := h
      obtain ⟨ws, hws⟩ := exists_below v
      -- what is below an item is no greater than the item, and so smaller than the list
      have hsize := hws.sizeOf_le
      obtain ⟨below, hbelow, hbelow'⟩ := exists_nested ws
      refine ⟨_, .symbol hr hws hbelow hrs, ?_⟩
      rw [nestedAll, nested_of_nests hr hws, hbelow', hrest]
      rfl
    · refine ⟨rs, .malformed (not_exists.1 h) hrs, ?_⟩
      rw [nestedAll, nested_of_malformed (not_exists.1 h), hrest]
      rfl
termination_by vs => sizeOf vs

theorem exists_reported (v : Json) : ∃ rs, Reported v rs ∧ item v = mapAll Report.symbol rs := by
  by_cases h : ∃ r, Nests v r
  · obtain ⟨r, hr⟩ := h
    obtain ⟨ws, hws⟩ := exists_below v
    obtain ⟨below, hbelow, hbelow'⟩ := exists_nested ws
    refine ⟨_, .nested hr hws hbelow, ?_⟩
    rw [item, nested_of_nests hr hws, hbelow']
    rfl
  · have hnone := not_exists.1 h
    rw [item, nested_of_malformed hnone]
    cases hflat : flatSymbol? v with
    | none =>
      refine ⟨[], .malformed hnone fun r hr => ?_, rfl⟩
      rw [flatSymbol?_eq_some.2 ⟨r, hr, rfl⟩] at hflat
      cases hflat
    | some s =>
      obtain ⟨r, hr, rfl⟩ := flatSymbol?_eq_some.1 hflat
      exact ⟨_, .flat hnone hr, rfl⟩

theorem exists_listed (vs : List Json) : ∃ rs, Listed vs rs ∧ vs.flatMap item = mapAll Report.symbol rs := by
  induction vs with
  | nil => exact ⟨[], .nil, rfl⟩
  | cons v vs ih =>
    obtain ⟨here, hhere, hitem⟩ := exists_reported v
    obtain ⟨rest, hrest, hitems⟩ := ih
    exact ⟨_, .cons hhere hrest, by rw [List.flatMap_cons, hitem, hitems, mapAll_append]⟩

theorem exists_answered (answer : Json) :
    ∃ rs, Answered answer rs ∧ symbols answer = mapAll Report.symbol rs := by
  cases answer with
  | arr vs =>
    obtain ⟨rs, hrs, hitems⟩ := exists_listed vs
    exact ⟨rs, .list hrs, hitems⟩
  | _ => exact ⟨[], .other fun _ h => (nomatch h), rfl⟩

/-- The symbols in an answer are those that it reports, and there is one way to read it. Each symbol is the
one reported with the lowest 32 bits of the number of its kind, and so it is the one reported unless the
number is greater and those bits are the number of a kind with a name. -/
theorem symbols_answered (answer : Json) :
    ∃ rs : Forest Report, (∀ rs', Answered answer rs' ↔ rs' = rs) ∧
      symbols answer = mapAll Report.symbol rs ∧
      ∀ r ∈ valuesAll rs,
        Report.Means { r with code := r.code % 2 ^ 32 } r.symbol ∧
        (∀ code, r.symbol.key.kind = .custom code → code.toNat = r.code % 2 ^ 32) ∧
        (r.Means r.symbol ↔ r.code < 2 ^ 32 ∨ r.code % 2 ^ 32 = 0 ∨ 26 < r.code % 2 ^ 32) := by
  obtain ⟨rs, hrs, hsymbols⟩ := exists_answered answer
  refine ⟨rs, fun rs' => ⟨fun h => h.unique hrs, fun h => h ▸ hrs⟩, hsymbols, fun r _ => ?_⟩
  have hcode : (UInt32.ofNat r.code).toNat = r.code % 2 ^ 32 := UInt32.toNat_ofNat'
  have hkind : Kind.Meant (r.code % 2 ^ 32) r.symbol.key.kind := hcode ▸ Kind.meant_ofCode (.ofNat r.code)
  refine ⟨⟨rfl, hkind, rfl, rfl, rfl⟩, ?_, ?_⟩
  · intro code h
    rw [Kind.eq_of_ofCode_eq_custom h, hcode]
  · rw [← Kind.meant_wrapped_iff hkind]
    exact ⟨Report.Means.kind, fun h => ⟨rfl, h, rfl, rfl, rfl⟩⟩

/-- An item with a malformed child, one that comes by itself with its end points reversed, and a malformed
one. -/
example :
    let position (line : Nat) := Json.obj [("line", .nat line), ("character", .nat 0)]
    let range (start stop : Nat) := Json.obj [("start", position start), ("end", position stop)]
    let nests (name : String) (children : List Json) := Json.obj [("name", .str name), ("kind", .nat 5),
      ("range", range 0 9), ("selectionRange", range 0 0), ("children", .arr children)]
    let flat := Json.obj [("name", .str "c"), ("kind", .nat 27), ("containerName", .str "m"),
      ("location", .obj [("range", range 4 2)])]
    symbols (.arr [nests "a" [.null, nests "b" []], flat, .str "d"]) =
      [node ⟨⟨.classType, "a"⟩, none, .ofLines 0 9, .ofLines 0 0⟩
        [node ⟨⟨.classType, "b"⟩, none, .ofLines 0 9, .ofLines 0 0⟩ []],
        node ⟨⟨.custom 27, "c"⟩, some "m", .ofLines 2 4, .ofLines 2 4⟩ []] := by
  decide

/-- Of a number five above a power of two, the lowest 32 bits are the number of a class. -/
theorem symbols_answered_wrapped :
    let position := Json.obj [("line", .nat 0), ("character", .nat 0)]
    let range := Json.obj [("start", position), ("end", position)]
    let item := Json.obj [("name", .str "a"), ("kind", .nat (2 ^ 32 + 5)), ("range", range),
      ("selectionRange", range)]
    ∃ (r : Report) (s : Symbol), Answered (.arr [item]) [node r []] ∧ symbols (.arr [item]) = [node s []] ∧
      r.code = 2 ^ 32 + 5 ∧ s.key.kind = .classType ∧ ¬ Kind.Meant r.code s.key.kind := by
  intro position range item
  let r : Report := ⟨"a", 2 ^ 32 + 5, none, .ofLines 0 0, .ofLines 0 0⟩
  have hposition : SaysPosition position ⟨0, 0⟩ := ⟨Json.has_iff.2 rfl, Json.has_iff.2 rfl⟩
  have hrange : SaysSpan range (.ofLines 0 0) :=
    .forward (Json.has_iff.2 rfl) (Json.has_iff.2 rfl) hposition hposition
  have hnests : Nests item r :=
    ⟨⟨Json.has_iff.2 rfl, Json.has_iff.2 rfl, text?_eq_iff.1 rfl⟩, ⟨range, Json.has_iff.2 rfl, hrange⟩,
      ⟨range, Json.has_iff.2 rfl, hrange⟩⟩
  have hbelow : Below item [] := .unlisted fun ws h => nomatch Json.has_iff.1 h
  have hsymbols : symbols (.arr [item]) = [node r.symbol []] := by
    show Lsp.item item ++ [] = _
    rw [Lsp.item, nested_of_nests hnests hbelow]
    rfl
  have hclass : r.symbol.key.kind = .classType := by decide
  refine ⟨r, r.symbol, .list (.cons (.nested hnests hbelow .nil) .nil), hsymbols, rfl, hclass, fun h => ?_⟩
  obtain ⟨code, hcode⟩ := h.custom_iff.2 (.inr (by decide))
  rw [hclass] at hcode
  cases hcode

end Lsp

end SymbolOutline
