import Mathlib.Data.Set.Function
import SymbolOutline.Proofs.Address
import SymbolOutline.Proofs.Nesting

/-
Forests taken to one another, entry by entry.

An entry is told from every other by its address, also where two look alike. Whatever is done to a
forest on the way to an outline takes each entry to a new address; what is below an entry stays below
it (`Carries`), and what is right above it stays right above it, unless the entry comes within what is
right above it then (`Sinks`). Taking a forest to another so is transitive, and it is enough to see
it for one swap of neighbours and for one entry that goes below its neighbour (`arranges_sunk`).
-/

namespace SymbolOutline

open Rose Forest

namespace Forest

variable {α β γ : Type}

/-- The addresses of the values of a forest. -/
def addresses (ts : Forest α) : Set (List Nat) := {a | (valueAt? ts a).isSome}

/-! ## One forest taken to another -/

/-- Values at some addresses of a forest are taken to all those of another by `f` and back by `g`. -/
structure Carries (A : Set (List Nat)) (R : α → β → Prop) (ss : Forest α) (ts : Forest β)
    (f g : List Nat → List Nat) : Prop where
  forth : ∀ a ∈ A, ∃ x ∈ valueAt? ss a, ∃ y ∈ valueAt? ts (f a), R x y
  back : ∀ b ∈ addresses ts, g b ∈ A
  left_inv : ∀ a ∈ A, g (f a) = a
  right_inv : ∀ b ∈ addresses ts, f (g b) = b
  mono : ∀ a ∈ A, ∀ b ∈ A, a <+: b → f a <+: f b

/-- Values at some addresses of a forest are those of another, and what is below stays below. -/
def Carried (A : Set (List Nat)) (R : α → β → Prop) (ss : Forest α) (ts : Forest β) : Prop :=
  ∃ f g, Carries A R ss ts f g

theorem mem_addresses {ts : Forest α} {a : List Nat} :
    a ∈ addresses ts ↔ ∃ x, valueAt? ts a = some x := Option.isSome_iff_exists

theorem mem_addresses_congr {ss ts : Forest α} {a b : List Nat} (h : valueAt? ss a = valueAt? ts b) :
    a ∈ addresses ss ↔ b ∈ addresses ts := by
  rw [mem_addresses, mem_addresses, h]

theorem addresses_nil : addresses ([] : Forest α) = ∅ := by
  ext a
  cases a <;> simp [addresses, valueAt?]

theorem ne_nil_of_mem_addresses {ts : Forest α} {a : List Nat} (h : a ∈ addresses ts) : a ≠ [] := by
  rintro rfl
  cases h

theorem valueAt?_of_ne_nil {t : Rose α} {a : List Nat} (h : a ≠ []) :
    t.valueAt? a = valueAt? t.children a := by
  cases a with
  | nil => exact absurd rfl h
  | cons n a => rfl

/-- There are values all the way down to a value. -/
theorem mem_addresses_above {ts : Forest α} {a b : List Nat} (hb : b ∈ addresses ts)
    (hab : a <+: b) (ha : a ≠ []) : a ∈ addresses ts := by
  induction a generalizing b ts with
  | nil => exact absurd rfl ha
  | cons n a ih =>
    obtain ⟨c, rfl⟩ := hab
    obtain ⟨x, hx⟩ := mem_addresses.1 hb
    obtain ⟨u, hu, hx⟩ : ∃ u, ts[n]? = some u ∧ u.valueAt? (a ++ c) = some x :=
      Option.bind_eq_some_iff.1 hx
    by_cases hne : a = []
    · subst hne
      exact mem_addresses.2 ⟨u.value, by rw [valueAt?, hu]; rfl⟩
    · rw [valueAt?_of_ne_nil (List.append_ne_nil_of_left_ne_nil hne c)] at hx
      have := ih (mem_addresses.2 ⟨x, hx⟩) (List.prefix_append a c) hne
      refine (mem_addresses_congr ?_).1 this
      rw [valueAt?, hu, Option.bind_some, valueAt?_of_ne_nil hne]

/-! ## One more tree at the front -/

/-- The address of a tree's neighbour, or of an entry below it, once a tree comes in front. -/
def shift : List Nat → List Nat
  | [] => []
  | n :: a => (n + 1) :: a

/-- Addresses below the first tree and addresses of the trees behind it, put together. -/
def consAddresses (A B : Set (List Nat)) : Set (List Nat) :=
  {a | a = [0] ∨ (∃ b ∈ A, a = 0 :: b) ∨ ∃ b ∈ B, a = shift b}

/-- Address maps for what is below the first tree and for the trees behind it, put together. -/
def consMap (f f' : List Nat → List Nat) : List Nat → List Nat
  | [] => []
  | [0] => [0]
  | 0 :: n :: a => 0 :: f (n :: a)
  | (n + 1) :: a => shift (f' (n :: a))

section

variable {a b : List Nat}

theorem shift_prefix_shift (h : b ≠ []) : shift a <+: shift b ↔ a <+: b := by
  cases a with
  | nil => simp [shift]
  | cons n a =>
    cases b with
    | nil => exact absurd rfl h
    | cons m b => simp [shift, List.cons_prefix_cons]

theorem not_zero_prefix_shift : ¬ 0 :: a <+: shift b := by
  cases b <;> simp [shift, List.cons_prefix_cons]

theorem not_shift_prefix_zero (h : a ≠ []) : ¬ shift a <+: 0 :: b := by
  cases a with
  | nil => exact absurd rfl h
  | cons n a => simp [shift, List.cons_prefix_cons]

theorem consMap_zero (h : a ≠ []) (f f' : List Nat → List Nat) : consMap f f' (0 :: a) = 0 :: f a := by
  cases a with
  | nil => exact absurd rfl h
  | cons n a => rfl

theorem consMap_shift (h : a ≠ []) (f f' : List Nat → List Nat) :
    consMap f f' (shift a) = shift (f' a) := by
  cases a with
  | nil => exact absurd rfl h
  | cons n a => rfl

theorem valueAt?_zero (h : a ≠ []) (x : α) (cs ts : Forest α) :
    valueAt? (node x cs :: ts) (0 :: a) = valueAt? cs a := by
  cases a with
  | nil => exact absurd rfl h
  | cons n a => rfl

theorem valueAt?_shift (t : Rose α) (ts : Forest α) (a : List Nat) :
    valueAt? (t :: ts) (shift a) = valueAt? ts a := by
  cases a <;> rfl

theorem shift_injective : Function.Injective shift := by
  intro a b h
  cases a <;> cases b <;> simp_all [shift]

theorem zero_ne_shift : 0 :: a ≠ shift b := by
  cases b <;> simp [shift]

theorem valueAt?_cons_cases {x y : α} {cs ts : Forest α} (h : valueAt? (node x cs :: ts) a = some y) :
    a = [0] ∧ y = x ∨
      (∃ b, a = 0 :: b ∧ valueAt? cs b = some y) ∨ ∃ b, a = shift b ∧ valueAt? ts b = some y := by
  match a, h with
  | [0], h => exact .inl ⟨rfl, (Option.some.inj h).symm⟩
  | 0 :: n :: a, h => exact .inr (.inl ⟨n :: a, rfl, h⟩)
  | (n + 1) :: a, h => exact .inr (.inr ⟨n :: a, rfl, h⟩)

theorem mem_valuesAll_of_valueAt? {x : α} {ts : Forest α} (h : valueAt? ts a = some x) :
    x ∈ valuesAll ts := by
  cases a with
  | nil => cases h
  | cons n a =>
    obtain ⟨t, ht, hx⟩ := Option.bind_eq_some_iff.1 h
    exact value_mem_of_valueAt? (List.mem_of_getElem? ht) hx

theorem exists_valueAt? {x : α} {ts : Forest α} (h : x ∈ valuesAll ts) :
    ∃ a, valueAt? ts a = some x := by
  induction ts using induct_forest with
  | nil => cases h
  | cons y cs ts ihc ih =>
    rw [valuesAll_cons, List.mem_cons, List.mem_append] at h
    rcases h with rfl | h | h
    · exact ⟨[0], rfl⟩
    · obtain ⟨a, ha⟩ := ihc h
      cases a with
      | nil => cases ha
      | cons n a => exact ⟨0 :: n :: a, ha⟩
    · obtain ⟨a, ha⟩ := ih h
      exact ⟨shift a, (valueAt?_shift _ ts a).trans ha⟩

end

theorem addresses_cons (x : α) (cs ts : Forest α) :
    addresses (node x cs :: ts) = consAddresses (addresses cs) (addresses ts) := by
  ext a
  constructor
  · intro h
    match a, h with
    | [0], _ => exact .inl rfl
    | 0 :: n :: b, h => exact .inr (.inl ⟨n :: b, h, rfl⟩)
    | (n + 1) :: b, h => exact .inr (.inr ⟨n :: b, h, rfl⟩)
  · rintro (rfl | ⟨b, hb, rfl⟩ | ⟨b, hb, rfl⟩)
    · rfl
    · exact (mem_addresses_congr (valueAt?_zero (ne_nil_of_mem_addresses hb) x cs ts)).2 hb
    · exact (mem_addresses_congr (valueAt?_shift _ ts b)).2 hb

namespace Carries

variable {A B : Set (List Nat)} {R : α → β → Prop} {ss : Forest α} {ts : Forest β}
  {f g f' g' : List Nat → List Nat}

theorem ne_nil (h : Carries A R ss ts f g) : ∀ a ∈ A, a ≠ [] := by
  intro a ha
  obtain ⟨x, hx, -⟩ := h.forth a ha
  exact ne_nil_of_mem_addresses (mem_addresses.2 ⟨x, hx⟩)

theorem mem (h : Carries A R ss ts f g) : ∀ a ∈ A, f a ∈ addresses ts := by
  intro a ha
  obtain ⟨-, -, y, hy, -⟩ := h.forth a ha
  exact mem_addresses.2 ⟨y, hy⟩

theorem nil : Carries ∅ R ([] : Forest α) ([] : Forest β) id id := by
  refine ⟨?_, ?_, ?_, ?_, ?_⟩ <;> simp [addresses_nil]

theorem cons {x : α} {y : β} {cs : Forest α} {ds : Forest β} (hxy : R x y)
    (h : Carries A R cs ds f g) (h' : Carries B R ss ts f' g') :
    Carries (consAddresses A B) R (node x cs :: ss) (node y ds :: ts) (consMap f f')
      (consMap g g') where
  forth := by
    -- the top of the first tree, what is below it, and what is behind it
    rintro a (rfl | ⟨a, ha, rfl⟩ | ⟨a, ha, rfl⟩)
    · exact ⟨x, rfl, y, rfl, hxy⟩
    · rw [consMap_zero (h.ne_nil a ha), valueAt?_zero (h.ne_nil a ha),
        valueAt?_zero (ne_nil_of_mem_addresses (h.mem a ha))]
      exact h.forth a ha
    · rw [consMap_shift (h'.ne_nil a ha), valueAt?_shift, valueAt?_shift]
      exact h'.forth a ha
  back := by
    rw [addresses_cons]
    rintro b (rfl | ⟨b, hb, rfl⟩ | ⟨b, hb, rfl⟩)
    · exact .inl rfl
    · rw [consMap_zero (ne_nil_of_mem_addresses hb)]
      exact .inr (.inl ⟨_, h.back b hb, rfl⟩)
    · rw [consMap_shift (ne_nil_of_mem_addresses hb)]
      exact .inr (.inr ⟨_, h'.back b hb, rfl⟩)
  left_inv := by
    rintro a (rfl | ⟨a, ha, rfl⟩ | ⟨a, ha, rfl⟩)
    · rfl
    · rw [consMap_zero (h.ne_nil a ha), consMap_zero (ne_nil_of_mem_addresses (h.mem a ha)),
        h.left_inv a ha]
    · rw [consMap_shift (h'.ne_nil a ha), consMap_shift (ne_nil_of_mem_addresses (h'.mem a ha)),
        h'.left_inv a ha]
  right_inv := by
    rw [addresses_cons]
    rintro b (rfl | ⟨b, hb, rfl⟩ | ⟨b, hb, rfl⟩)
    · rfl
    · rw [consMap_zero (ne_nil_of_mem_addresses hb), consMap_zero (h.ne_nil _ (h.back b hb)),
        h.right_inv b hb]
    · rw [consMap_shift (ne_nil_of_mem_addresses hb), consMap_shift (h'.ne_nil _ (h'.back b hb)),
        h'.right_inv b hb]
  mono := by
    -- an address is a prefix of another only if both are of the first tree or both are behind it
    rintro a (rfl | ⟨a, ha, rfl⟩ | ⟨a, ha, rfl⟩) b (rfl | ⟨b, hb, rfl⟩ | ⟨b, hb, rfl⟩) hab
    · exact hab
    · rw [consMap_zero (h.ne_nil b hb)]
      exact ⟨f b, rfl⟩
    · exact absurd hab not_zero_prefix_shift
    · have := (List.cons_prefix_cons.1 hab).2
      exact absurd (List.prefix_nil.1 this) (h.ne_nil a ha)
    · rw [consMap_zero (h.ne_nil a ha), consMap_zero (h.ne_nil b hb)]
      have := (List.cons_prefix_cons.1 hab).2
      exact List.cons_prefix_cons.2 ⟨rfl, h.mono a ha b hb this⟩
    · exact absurd hab not_zero_prefix_shift
    · exact absurd hab (not_shift_prefix_zero (h'.ne_nil a ha))
    · exact absurd hab (not_shift_prefix_zero (h'.ne_nil a ha))
    · rw [consMap_shift (h'.ne_nil a ha), consMap_shift (h'.ne_nil b hb)]
      have := (shift_prefix_shift (h'.ne_nil b hb)).1 hab
      exact (shift_prefix_shift (ne_nil_of_mem_addresses (h'.mem b hb))).2 (h'.mono a ha b hb this)

theorem bijOn (h : Carries A R ss ts f g) : Set.BijOn f A (addresses ts) :=
  Set.InvOn.bijOn ⟨h.left_inv, h.right_inv⟩ h.mem h.back

end Carries

namespace Carries

variable {A : Set (List Nat)} {R : α → β → Prop} {S : β → γ → Prop} {T : α → γ → Prop}
  {ss : Forest α} {ts : Forest β} {us : Forest γ} {f g f' g' : List Nat → List Nat}

theorem trans (hT : ∀ x y z, R x y → S y z → T x z) (h : Carries A R ss ts f g)
    (h' : Carries (addresses ts) S ts us f' g') : Carries A T ss us (f' ∘ f) (g ∘ g') where
  forth := by
    intro a ha
    obtain ⟨x, hx, y, hy, hxy⟩ := h.forth a ha
    obtain ⟨y', hy', z, hz, hyz⟩ := h'.forth (f a) (h.mem a ha)
    obtain rfl : y = y' := Option.some.inj (hy.symm.trans hy')
    exact ⟨x, hx, z, hz, hT x y z hxy hyz⟩
  back := fun b hb => h.back _ (h'.back b hb)
  left_inv := by
    intro a ha
    rw [Function.comp_apply, Function.comp_apply, h'.left_inv _ (h.mem a ha), h.left_inv a ha]
  right_inv := by
    intro b hb
    rw [Function.comp_apply, Function.comp_apply, h.right_inv _ (h'.back b hb), h'.right_inv b hb]
  mono := fun a ha b hb hab => h'.mono _ (h.mem a ha) _ (h.mem b hb) (h.mono a ha b hb hab)

/-- Values that stay at their addresses. -/
theorem stay (h : ∀ a, Option.Rel R (valueAt? ss a) (valueAt? ts a)) :
    Carries (addresses ss) R ss ts id id where
  forth := by
    intro a ha
    obtain ⟨x, hx⟩ := mem_addresses.1 ha
    have hr := h a
    cases hy : valueAt? ts a with
    | none =>
      rw [hx, hy] at hr
      cases hr
    | some y =>
      rw [hx, hy] at hr
      cases hr with
      | some hxy => exact ⟨x, hx, y, hy, hxy⟩
  back := by
    intro b hb
    obtain ⟨y, hy⟩ := mem_addresses.1 hb
    have hr := h b
    cases hx : valueAt? ss b with
    | none =>
      rw [hx, hy] at hr
      cases hr
    | some x => exact mem_addresses.2 ⟨x, hx⟩
  left_inv := fun _ _ => rfl
  right_inv := fun _ _ => rfl
  mono := fun _ _ _ _ hab => hab

end Carries

theorem Carried.trans {A : Set (List Nat)} {R : α → β → Prop} {S : β → γ → Prop} {T : α → γ → Prop}
    {ss : Forest α} {ts : Forest β} {us : Forest γ} (hT : ∀ x y z, R x y → S y z → T x z)
    (h : Carried A R ss ts) (h' : Carried (addresses ts) S ts us) : Carried A T ss us := by
  obtain ⟨f, g, h⟩ := h
  obtain ⟨f', g', h'⟩ := h'
  exact ⟨_, _, h.trans hT h'⟩

/-! ## Moving whole trees -/

/-- Takes whole trees, numbered as the roots they are, to other places. -/
def reroot (h : Nat → List Nat) : List Nat → List Nat
  | [] => []
  | n :: a => h n ++ a

/-- The first two trees change places. -/
def swapped : Nat → List Nat
  | 0 => [1]
  | 1 => [0]
  | n => [n]

/-- The second tree goes below the first, which has `n` children. -/
def absorbed (n : Nat) : Nat → List Nat
  | 0 => [0]
  | 1 => [0, n]
  | m + 2 => [m + 1]

/-- The address before the second tree went below the first. -/
def released (n : Nat) : List Nat → List Nat
  | [] => []
  | [0] => [0]
  | 0 :: m :: a => if m = n then 1 :: a else 0 :: m :: a
  | (m + 1) :: a => (m + 2) :: a

theorem reroot_prefix {a b : List Nat} (h : Nat → List Nat) (hab : a <+: b) :
    reroot h a <+: reroot h b := by
  cases a with
  | nil => exact List.nil_prefix
  | cons n a =>
    obtain ⟨c, rfl⟩ := hab
    exact ⟨c, by simp [reroot]⟩

theorem valueAt?_absorb (x : α) (cs : Forest α) (s : Rose α) (ts : Forest α) (a : List Nat) :
    valueAt? (node x (cs ++ [s]) :: ts) (0 :: cs.length :: a) =
      valueAt? (node x cs :: s :: ts) (1 :: a) := by
  rw [valueAt?_zero (List.cons_ne_nil _ _), valueAt?, List.getElem?_concat_length]
  rfl

namespace Carries

variable {ss ts : Forest α}

/-- Whole trees are taken to other places. -/
theorem of_reroot {h : Nat → List Nat} {g : List Nat → List Nat}
    (hv : ∀ a ∈ addresses ss, valueAt? ts (reroot h a) = valueAt? ss a ∧ g (reroot h a) = a)
    (hg : ∀ b ∈ addresses ts, g b ∈ addresses ss ∧ reroot h (g b) = b) :
    Carries (addresses ss) Eq ss ts (reroot h) g := by
  refine ⟨fun a ha => ?_, fun b hb => (hg b hb).1, fun a ha => (hv a ha).2,
    fun b hb => (hg b hb).2, fun _ _ _ _ => reroot_prefix h⟩
  obtain ⟨x, hx⟩ := mem_addresses.1 ha
  exact ⟨x, hx, x, (hv a ha).1.trans hx, rfl⟩

theorem swap (s t : Rose α) (ts : Forest α) :
    Carries (addresses (s :: t :: ts)) Eq (s :: t :: ts) (t :: s :: ts) (reroot swapped)
      (reroot swapped) := by
  have hvalue : ∀ (s t : Rose α) (a : List Nat),
      valueAt? (t :: s :: ts) (reroot swapped a) = valueAt? (s :: t :: ts) a := by
    rintro s t (_ | ⟨_ | _ | n, a⟩) <;> rfl
  have hinv : ∀ a : List Nat, reroot swapped (reroot swapped a) = a := by
    rintro (_ | ⟨_ | _ | n, a⟩) <;> rfl
  exact of_reroot (fun a _ => ⟨hvalue s t a, hinv a⟩)
    fun b hb => ⟨(mem_addresses_congr (hvalue t s b)).2 hb, hinv b⟩

/-- A tree goes below its neighbour, behind what is there. -/
theorem absorb (x : α) (cs : Forest α) (s : Rose α) (ts : Forest α) :
    Carries (addresses (node x cs :: s :: ts)) Eq (node x cs :: s :: ts)
      (node x (cs ++ [s]) :: ts) (reroot (absorbed cs.length)) (released cs.length) := by
  have old : ∀ n b, n < cs.length →
      valueAt? (node x (cs ++ [s]) :: ts) (0 :: n :: b) =
        valueAt? (node x cs :: s :: ts) (0 :: n :: b) := by
    intro n b hn
    rw [valueAt?_zero (List.cons_ne_nil _ _), valueAt?_zero (List.cons_ne_nil _ _), valueAt?,
      valueAt?, List.getElem?_append_left hn]
  have lt : ∀ {us vs : Forest α} {n b}, 0 :: n :: b ∈ addresses (node x us :: vs) → n < us.length := by
    intro us vs n b hmem
    obtain ⟨y, hy⟩ := mem_addresses.1 hmem
    obtain ⟨u, hu, -⟩ := Option.bind_eq_some_iff.1 hy
    exact (List.getElem?_eq_some_iff.1 hu).1
  refine of_reroot ?_ ?_
  · rintro (_ | ⟨_ | _ | n, a⟩) ha
    · cases ha
    · cases a with
      | nil => exact ⟨rfl, rfl⟩
      | cons n b => exact ⟨old n b (lt ha), if_neg (Nat.ne_of_lt (lt ha))⟩
    · exact ⟨valueAt?_absorb x cs s ts a, if_pos rfl⟩
    · exact ⟨rfl, rfl⟩
  · rintro (_ | ⟨_ | n, b⟩) hb
    · cases hb
    · cases b with
      | nil => exact ⟨rfl, rfl⟩
      | cons n b =>
        have hn : n < (cs ++ [s]).length := lt hb
        rw [List.length_append, List.length_singleton] at hn
        rw [released]
        split
        · next hc =>
          subst hc
          exact ⟨(mem_addresses_congr (valueAt?_absorb x cs s ts b)).1 hb, rfl⟩
        · next hc => exact ⟨(mem_addresses_congr (old n b (by omega))).1 hb, rfl⟩
    · exact ⟨hb, rfl⟩

end Carries

/-! ## Passing over a tree -/

/-- The address of a tree's neighbour, or of an entry below it, once the tree is gone. -/
def unshift : List Nat → List Nat
  | (n + 1) :: a => n :: a
  | a => a

theorem unshift_shift (a : List Nat) : unshift (shift a) = a := by
  cases a <;> rfl

theorem Carries.skip {A : Set (List Nat)} {R : α → β → Prop} {ss : Forest α} {ts : Forest β}
    {f g : List Nat → List Nat} (h : Carries A R ss ts f g) (s : Rose α) :
    Carries (shift '' A) R (s :: ss) ts (f ∘ unshift) (shift ∘ g) where
  forth := by
    rintro _ ⟨a, ha, rfl⟩
    rw [valueAt?_shift, Function.comp_apply, unshift_shift]
    exact h.forth a ha
  back := fun b hb => Set.mem_image_of_mem shift (h.back b hb)
  left_inv := by
    rintro _ ⟨a, ha, rfl⟩
    rw [Function.comp_apply, Function.comp_apply, unshift_shift, h.left_inv a ha]
  right_inv := by
    intro b hb
    rw [Function.comp_apply, Function.comp_apply, unshift_shift, h.right_inv b hb]
  mono := by
    rintro _ ⟨a, ha, rfl⟩ _ ⟨b, hb, rfl⟩ hab
    rw [Function.comp_apply, Function.comp_apply, unshift_shift, unshift_shift]
    exact h.mono a ha b hb ((shift_prefix_shift (h.ne_nil b hb)).1 hab)

end Forest

namespace Outline

/-! ## Above an entry -/

/-- The value at an address lies within the one right above it. -/
def Inside (ts : Forest Item) (a : List Nat) : Prop :=
  ∃ i ∈ valueAt? ts a.dropLast, ∃ j ∈ valueAt? ts a, i.range.Covers j.range

/-- Values at some addresses of a forest are taken to all those of another by `f`. What is right above
one of them stays right above it, unless it comes within what is right above it then. -/
structure Sinks {α : Type} (A : Set (List Nat)) (R : α → Item → Prop) (ss : Forest α)
    (ts : Forest Item) (f g : List Nat → List Nat) : Prop extends Carries A R ss ts f g where
  top : f [] = []
  above : ∀ a ∈ A, f a.dropLast = (f a).dropLast ∨ Inside ts (f a)

theorem dropLast_zero {a : List Nat} (h : a ≠ []) : (0 :: a).dropLast = 0 :: a.dropLast :=
  List.dropLast_cons_of_ne_nil h

theorem dropLast_shift (a : List Nat) : (shift a).dropLast = shift a.dropLast := by
  match a with
  | [] => rfl
  | [n] => rfl
  | n :: m :: a => rfl

theorem Inside.zero {i : Item} {cs ts : Forest Item} {a : List Nat} (h : Inside cs a) :
    Inside (node i cs :: ts) (0 :: a) := by
  obtain ⟨j, hj, k, hk, hcovers⟩ := h
  have ha := ne_nil_of_mem_addresses (mem_addresses.2 ⟨k, hk⟩)
  have ha' := ne_nil_of_mem_addresses (mem_addresses.2 ⟨j, hj⟩)
  refine ⟨j, ?_, k, ?_, hcovers⟩
  · rw [dropLast_zero ha, valueAt?_zero ha']
    exact hj
  · rw [valueAt?_zero ha]
    exact hk

theorem Inside.shift {t : Rose Item} {ts : Forest Item} {a : List Nat} (h : Inside ts a) :
    Inside (t :: ts) (shift a) := by
  obtain ⟨j, hj, k, hk, hcovers⟩ := h
  refine ⟨j, ?_, k, ?_, hcovers⟩
  · rw [dropLast_shift, valueAt?_shift]
    exact hj
  · rw [valueAt?_shift]
    exact hk

namespace Sinks

variable {α : Type} {A B : Set (List Nat)} {R : α → Item → Prop} {ss : Forest α}
  {ts us : Forest Item} {f g f' g' : List Nat → List Nat}

theorem nil : Sinks ∅ R ([] : Forest α) [] id id where
  toCarries := .nil
  top := rfl
  above := fun _ ha => ha.elim

theorem cons {x : α} {i : Item} {cs : Forest α} {ds : Forest Item} (hxi : R x i)
    (h : Sinks A R cs ds f g) (h' : Sinks B R ss ts f' g') :
    Sinks (consAddresses A B) R (node x cs :: ss) (node i ds :: ts) (consMap f f')
      (consMap g g') where
  toCarries := h.toCarries.cons hxi h'.toCarries
  top := rfl
  above := by
    rintro a (rfl | ⟨a, ha, rfl⟩ | ⟨a, ha, rfl⟩)
    · exact .inl rfl
    · have hfa := ne_nil_of_mem_addresses (h.mem a ha)
      rw [dropLast_zero (h.ne_nil a ha), consMap_zero (h.ne_nil a ha)]
      refine (h.above a ha).imp (fun habove => ?_) Inside.zero
      -- right above may be the top of the tree
      by_cases hd : a.dropLast = []
      · rw [hd, h.top] at habove
        rw [hd, dropLast_zero hfa, ← habove]
        rfl
      · rw [consMap_zero hd, dropLast_zero hfa, habove]
    · rw [dropLast_shift, consMap_shift (h'.ne_nil a ha)]
      refine (h'.above a ha).imp (fun habove => ?_) Inside.shift
      rw [dropLast_shift, ← habove]
      by_cases hd : a.dropLast = []
      · rw [hd, h'.top]
        rfl
      · rw [consMap_shift hd]

theorem skip (h : Sinks A R ss ts f g) (s : Rose α) :
    Sinks (shift '' A) R (s :: ss) ts (f ∘ unshift) (shift ∘ g) where
  toCarries := h.toCarries.skip s
  top := h.top
  above := by
    rintro _ ⟨a, ha, rfl⟩
    rw [Function.comp_apply, Function.comp_apply, dropLast_shift, unshift_shift, unshift_shift]
    exact h.above a ha

theorem trans {S : Item → Item → Prop} {T : α → Item → Prop} (hT : ∀ x i j, R x i → S i j → T x j)
    (hS : ∀ i j, S i j → j.range = i.range) (h : Sinks A R ss ts f g)
    (h' : Sinks (addresses ts) S ts us f' g') : Sinks A T ss us (f' ∘ f) (g ∘ g') where
  toCarries := h.toCarries.trans hT h'.toCarries
  top := (congrArg f' h.top).trans h'.top
  above := by
    intro a ha
    rw [Function.comp_apply, Function.comp_apply]
    refine or_iff_not_imp_right.2 fun hout => ?_
    have habove := (h'.above _ (h.mem a ha)).resolve_right hout
    rcases h.above a ha with hfirst | ⟨i, hi, j, hj, hcovers⟩
    · rw [hfirst, habove]
    · -- within what is right above before the second step, and so after it
      refine absurd ?_ hout
      obtain ⟨i', hi', k, hk, hik⟩ := h'.forth _ (mem_addresses.2 ⟨i, hi⟩)
      obtain ⟨j', hj', l, hl, hjl⟩ := h'.forth _ (mem_addresses.2 ⟨j, hj⟩)
      obtain rfl : i = i' := Option.some.inj (hi.symm.trans hi')
      obtain rfl : j = j' := Option.some.inj (hj.symm.trans hj')
      rw [habove] at hk
      refine ⟨k, hk, l, hl, ?_⟩
      rwa [hS _ _ hik, hS _ _ hjl]

/-- Values that stay at their addresses. -/
theorem stay (h : Carries A R ss ts id id) : Sinks A R ss ts id id where
  toCarries := h
  top := rfl
  above := fun _ _ => .inl rfl

/-- Where whole trees are taken to other places, those that do not stay roots come within what is
right above them. -/
theorem of_reroot {h : Nat → List Nat} (hcarries : Carries A R ss ts (reroot h) g)
    (hroot : ∀ n, [n] ∈ A → (h n).dropLast = [] ∨ Inside ts (h n)) :
    Sinks A R ss ts (reroot h) g where
  toCarries := hcarries
  top := rfl
  above := by
    intro a ha
    match a with
    | [] => exact .inl rfl
    | [n] =>
      rw [reroot, List.append_nil]
      exact (hroot n ha).imp_left Eq.symm
    | n :: m :: a =>
      rw [reroot, List.dropLast_append_of_ne_nil (List.cons_ne_nil m a)]
      exact .inl rfl

end Sinks

/-- Items rearranged with what is right above them, unless they come within what is there then. -/
def Sunk (ss ts : Forest Item) : Prop := ∃ f g, Sinks (addresses ss) Eq ss ts f g

theorem arranges_sunk : Arranges Sunk where
  refl ts := ⟨_, _, .stay (.stay fun a => by
    cases valueAt? ts a with
    | none => exact .none
    | some i => exact .some rfl)⟩
  trans := by
    rintro ss ts us ⟨f, g, h⟩ ⟨f', g', h'⟩
    exact ⟨_, _, h.trans (S := Eq) (fun _ _ _ => Eq.trans) (fun i j hij => hij ▸ rfl) h'⟩
  cons := by
    rintro cs ds ss ts i ⟨f, g, h⟩ ⟨f', g', h'⟩
    unfold Sunk
    rw [addresses_cons]
    exact ⟨_, _, h.cons rfl h'⟩
  swap s t ts := by
    refine ⟨_, _, .of_reroot (.swap s t ts) ?_⟩
    rintro (_ | _ | n) _ <;> exact .inl rfl
  absorb i cs s ts hcovers := by
    refine ⟨_, _, .of_reroot (.absorb i cs s ts) ?_⟩
    rintro (_ | _ | n) _
    · exact .inl rfl
    · exact .inr ⟨i, rfl, s.value, valueAt?_absorb i cs s ts [], hcovers⟩
    · exact .inl rfl

end Outline

end SymbolOutline
