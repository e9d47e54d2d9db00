import Mathlib.Algebra.Ring.Nat
import Mathlib.Data.List.Perm.Subperm
import SymbolOutline.Proofs.Carries
import SymbolOutline.Proofs.Insertion
import SymbolOutline.Proofs.Recount
import SymbolOutline.Proofs.WorkingSets

/-
Where the diagnostics of one list come to rest, and what the entries then count. A diagnostic that comes
to rest does so at an entry that contains its lines and has no entry right below that does
(`atHome_rest`). It comes to rest if its lines lie in a root, or in an entry on the address where the
one before rests (`rest_ne_nil`). Every entry counts what rests at its address and takes note of what
entries below it count, and it is remembered if it does either (`accounts_apply`).

An entry may reach beyond the one it is below. Then a diagnostic in no root may still be counted,
because of the one before it, and the counts are those of what lies in the roots just if this does not
happen (`settled_apply`). It does not where entries keep within the ones above them
(`accounted_of_covers`).
-/

namespace SymbolOutline

open Forest Rose

namespace Tally

/-- How many diagnostics of a severity an entry counts as its own. -/
def own (t : Tally) : Severity → UInt32
  | .error => t.errors
  | .warning => t.warnings
  | _ => 0

/-- Whether an entry takes note of diagnostics of a severity below. -/
def below (t : Tally) : Severity → Bool
  | .error => t.errorBelow
  | .warning => t.warningBelow
  | _ => false

end Tally

/-- What was found are errors and warnings, and fewer than a 32-bit word holds. -/
structure Countable (found : List (Outline.Address × Severity)) : Prop where
  grave : ∀ f ∈ found, f.2 = .error ∨ f.2 = .warning
  short : found.length < UInt32.size

theorem Countable.sublist {found more : List (Outline.Address × Severity)} (h : Countable more)
    (hsub : (found.map Prod.snd).Sublist (more.map Prod.snd)) : Countable found where
  grave f hf := by
    obtain ⟨g, hg, hfg⟩ := List.mem_map.1 (hsub.subset (List.mem_map_of_mem hf))
    exact hfg ▸ h.grave g hg
  short := by
    have := hsub.length_le
    rw [List.length_map, List.length_map] at this
    exact Nat.lt_of_le_of_lt this h.short

theorem Countable.ne {found : List (Outline.Address × Severity)} (h : Countable found) {s : Severity}
    (he : s ≠ .error) (hw : s ≠ .warning) : ∀ f ∈ found, f.2 ≠ s := by
  intro f hf hs
  rcases h.grave f hf with e | e
  · exact he (hs.symm.trans e)
  · exact hw (hs.symm.trans e)

/-- An entry that counts some of what was found counts each severity as often as it is there. -/
theorem Countable.toNat_own_add {found : List (Outline.Address × Severity)} (h : Countable found)
    (s : Severity) : ((Tally.zero.add found).own s).toNat =
      found.countP fun f => f.1 = [] ∧ f.2 = s := by
  have hcount : ∀ p : Outline.Address × Severity → Bool, (0 + UInt32.ofNat (found.countP p)).toNat =
      found.countP p := fun p => by
    rw [UInt32.zero_add, UInt32.toNat_ofNat_of_lt' (Nat.lt_of_le_of_lt List.countP_le_length h.short)]
  have hnone : s ≠ .error → s ≠ .warning → 0 = found.countP fun f => f.1 = [] ∧ f.2 = s := fun he hw =>
    (List.countP_eq_zero.2 fun f hf => by simp [h.ne he hw f hf]).symm
  cases s with
  | error => exact hcount _
  | warning => exact hcount _
  | information => exact hnone (by decide) (by decide)
  | hint => exact hnone (by decide) (by decide)

theorem Countable.below_add {found : List (Outline.Address × Severity)} (h : Countable found)
    (s : Severity) : (Tally.zero.add found).below s = true ↔ ∃ f ∈ found, f.1 ≠ [] ∧ f.2 = s := by
  have hnone : s ≠ .error → s ≠ .warning → ¬ ∃ f ∈ found, f.1 ≠ [] ∧ f.2 = s := by
    rintro he hw ⟨f, hf, -, hs⟩
    exact h.ne he hw f hf hs
  cases s with
  | error => simp [Tally.below, Tally.add, Tally.zero]
  | warning => simp [Tally.below, Tally.add, Tally.zero]
  | information => exact iff_of_false Bool.false_ne_true (hnone (by decide) (by decide))
  | hint => exact iff_of_false Bool.false_ne_true (hnone (by decide) (by decide))

namespace Outline

variable {o : Outline} {ts : Forest Item} {t : Rose Item} {d : Span} {n : Nat} {a b : Address}

/-! ## Coming to rest -/

/-- The lines of a span are among those of some root. -/
def Rooted (ts : Forest Item) (d : Span) : Prop := ∃ t ∈ ts, t.value.range.CoversLines d

instance (ts : Forest Item) (d : Span) : Decidable (Rooted ts d) :=
  inferInstanceAs (Decidable (∃ t ∈ ts, t.value.range.CoversLines d))

/-- The lines of a span are among those of an entry, and not among those of an entry right below. -/
def AtHome (ts : Forest Item) (d : Span) (a : Address) : Prop :=
  (∃ i ∈ Forest.valueAt? ts a, i.range.CoversLines d) ∧
    ∀ n, ∀ i ∈ Forest.valueAt? ts (a ++ [n]), ¬ i.range.CoversLines d

/-- The lines of a span are among those of an entry at an address or above it. -/
def Along (ts : Forest Item) (a : Address) (d : Span) : Prop :=
  ∃ b, b <+: a ∧ ∃ i ∈ Forest.valueAt? ts b, i.range.CoversLines d

theorem ne_nil_of_atHome (h : AtHome ts d a) : a ≠ [] := by
  rintro rfl
  obtain ⟨⟨i, hi, -⟩, -⟩ := h
  cases hi

theorem valueAt?_cons (ht : ts[n]? = some t) (a : Address) :
    Forest.valueAt? ts (n :: a) = t.valueAt? a := by
  rw [Forest.valueAt?, ht, Option.bind_some]

theorem atHome_top (ht : ts[n]? = some t) :
    AtHome ts d [n] ↔ t.value.range.CoversLines d ∧ ¬ Rooted t.children d := by
  have below : ∀ m, Forest.valueAt? ts ([n] ++ [m]) = t.children[m]?.map Rose.value := fun m => by
    rw [List.cons_append, valueAt?_cons ht, List.nil_append, Rose.valueAt?]
    cases t.children[m]? <;> rfl
  constructor
  · rintro ⟨⟨i, hi, hd⟩, hnone⟩
    rw [valueAt?_cons ht] at hi
    obtain rfl : t.value = i := Option.some.inj hi
    refine ⟨hd, ?_⟩
    rintro ⟨u, hu, hud⟩
    obtain ⟨m, hm⟩ := List.mem_iff_getElem?.1 hu
    exact hnone m u.value (by rw [below, hm]; rfl) hud
  · rintro ⟨hd, hnone⟩
    refine ⟨⟨t.value, by rw [valueAt?_cons ht]; rfl, hd⟩, fun m i hi hid => hnone ?_⟩
    rw [below] at hi
    obtain ⟨u, hu, rfl⟩ := Option.map_eq_some_iff.1 hi
    exact ⟨u, List.mem_of_getElem? hu, hid⟩

theorem atHome_below (ht : ts[n]? = some t) (h : AtHome t.children d a) : AtHome ts d (n :: a) := by
  obtain ⟨m, a, rfl⟩ := List.exists_cons_of_ne_nil (ne_nil_of_atHome h)
  unfold AtHome
  rw [valueAt?_cons ht]
  refine ⟨h.1, fun k i hi => h.2 k i ?_⟩
  rwa [List.cons_append, valueAt?_cons ht] at hi

theorem along_cons (ht : ts[n]? = some t) :
    Along ts (n :: a) d ↔ t.value.range.CoversLines d ∨ Along t.children a d := by
  constructor
  · rintro ⟨b, hb, i, hi, hd⟩
    rcases List.prefix_cons_iff.1 hb with rfl | ⟨c, rfl, hc⟩
    · cases hi
    rw [valueAt?_cons ht] at hi
    cases c with
    | nil =>
      obtain rfl : t.value = i := Option.some.inj hi
      exact .inl hd
    | cons m c => exact .inr ⟨m :: c, hc, i, hi, hd⟩
  · rintro (hd | ⟨b, hb, i, hi, hd⟩)
    · exact ⟨[n], by simp, t.value, by rw [valueAt?_cons ht]; rfl, hd⟩
    · obtain ⟨m, b, rfl⟩ : ∃ m c, b = m :: c := by
        cases b with
        | nil => cases hi
        | cons m b => exact ⟨m, b, rfl⟩
      exact ⟨n :: m :: b, List.cons_prefix_cons.2 ⟨rfl, hb⟩, i, by rwa [valueAt?_cons ht], hd⟩

theorem not_along_nil : ¬ Along ts [] d := by
  rintro ⟨b, hb, i, hi, -⟩
  obtain rfl := List.prefix_nil.1 hb
  cases hi

theorem not_along_of_none (ht : ts[n]? = none) : ¬ Along ts (n :: a) d := by
  rintro ⟨b, hb, i, hi, -⟩
  rcases List.prefix_cons_iff.1 hb with rfl | ⟨c, rfl, -⟩
  · cases hi
  · rw [Forest.valueAt?, ht] at hi
    cases hi

theorem descend_eq (d : Span) (t : Rose Item) : descend d t = descendFrom d 0 t.children := by
  cases t; rfl

theorem descendFrom_eq_nil (h : ¬ Rooted ts d) (n : Nat) : descendFrom d n ts = [] := by
  induction ts generalizing n with
  | nil => rfl
  | cons t ts ih =>
    rw [descendFrom, if_neg fun ht => h ⟨t, List.mem_cons_self .., ht⟩]
    refine ih ?_ (n + 1)
    rintro ⟨u, hu, hd⟩
    exact h ⟨u, List.mem_cons_of_mem _ hu, hd⟩

/-- The way down from siblings ends at home if it does so below each of them. -/
theorem atHome_descend (ht : ts[n]? = some t) (hd : t.value.range.CoversLines d)
    (h : Rooted t.children d →
      ∃ m a, descendFrom d 0 t.children = (0 + m) :: a ∧ AtHome t.children d (m :: a)) :
    AtHome ts d (n :: descend d t) := by
  rw [descend_eq]
  by_cases hc : Rooted t.children d
  · obtain ⟨m, a, ha, hhome⟩ := h hc
    rw [ha, Nat.zero_add]
    exact atHome_below ht hhome
  · rw [descendFrom_eq_nil hc]
    exact (atHome_top ht).2 ⟨hd, hc⟩

/-- The way down from siblings ends at home. -/
theorem atHome_descendFrom (h : Rooted ts d) (n : Nat) :
    ∃ m a, descendFrom d n ts = (n + m) :: a ∧ AtHome ts d (m :: a) := by
  induction ts using induct_forest generalizing n with
  | nil =>
    obtain ⟨t, ht, -⟩ := h
    cases ht
  | cons i cs ss ihc ih =>
    rw [descendFrom]
    by_cases hi : i.range.CoversLines d
    · exact ⟨0, descend d (node i cs), if_pos hi, atHome_descend rfl hi fun hc => ihc hc 0⟩
    · obtain ⟨t, ht, hd⟩ := h
      have hs : t ∈ ss := by
        rcases List.mem_cons.1 ht with rfl | ht
        · exact absurd hd hi
        · exact ht
      obtain ⟨m, a, ha, hhome⟩ := ih ⟨t, hs, hd⟩ (n + 1)
      refine ⟨m + 1, a, ?_, hhome⟩
      rw [value_node, if_neg hi, ha, Nat.add_right_comm, Nat.add_assoc]

/-- So does the way down from the innermost entry on an address. -/
theorem atHome_settle? (h : settle? d ts a = some b) : AtHome ts d b := by
  induction a generalizing ts b with
  | nil => cases h
  | cons n a ih =>
    rw [settle?] at h
    cases ht : ts[n]? with
    | none => simp [ht] at h
    | some t =>
      simp only [ht] at h
      cases hs : settle? d t.children a with
      | some c =>
        simp only [hs, Option.some.injEq] at h
        exact h ▸ atHome_below ht (ih hs)
      | none =>
        simp only [hs, Option.ite_none_right_eq_some, Option.some.injEq] at h
        exact h.2 ▸ atHome_descend ht h.1 fun hc => atHome_descendFrom hc 0

theorem settle?_eq_none : settle? d ts a = none ↔ ¬ Along ts a d := by
  induction a generalizing ts with
  | nil => exact iff_of_true rfl not_along_nil
  | cons n a ih =>
    rw [settle?]
    cases ht : ts[n]? with
    | none => exact iff_of_true rfl (not_along_of_none ht)
    | some t =>
      rw [along_cons ht, not_or, ← ih]
      cases hs : settle? d t.children a <;> simp [hs]

instance (ts : Forest Item) (a : Address) (d : Span) : Decidable (Along ts a d) :=
  decidable_of_iff (settle? d ts a ≠ none) (not_iff_comm.1 settle?_eq_none.symm)

theorem rest_of_along (h : Along o a d) : ∃ b, settle? d o a = some b ∧ o.rest a d = b := by
  obtain ⟨b, hb⟩ := Option.ne_none_iff_exists'.1 fun hn => settle?_eq_none.1 hn h
  exact ⟨b, hb, by rw [rest, hb, Option.getD_some]⟩

theorem rest_of_not_along (h : ¬ Along o a d) : o.rest a d = descendFrom d 0 o := by
  rw [rest, settle?_eq_none.2 h, Option.getD_none]

/-- A span comes to rest at home if it comes to rest at all. -/
theorem atHome_rest (h : Along o a d ∨ Rooted o d) : AtHome o d (o.rest a d) := by
  by_cases ha : Along o a d
  · obtain ⟨b, hb, hrest⟩ := rest_of_along ha
    exact hrest ▸ atHome_settle? hb
  · obtain ⟨m, b, hb, hhome⟩ := atHome_descendFrom (h.resolve_left ha) 0
    rw [rest_of_not_along ha, hb, Nat.zero_add]
    exact hhome

/-- It does if a root contains its lines, or an entry does on the address where the one before rests. -/
theorem rest_ne_nil : o.rest a d ≠ [] ↔ Along o a d ∨ Rooted o d := by
  constructor
  · intro h
    by_contra hor
    rw [not_or] at hor
    exact h (by rw [rest_of_not_along hor.1, descendFrom_eq_nil hor.2])
  · exact fun h => ne_nil_of_atHome (atHome_rest h)

/-! ## One after the other -/

/-- Diagnostics, each with the address where it comes to rest. -/
def places (o : Outline) (before : Address) : List (Span × Severity) → List ((Span × Severity) × Address)
  | [] => []
  | d :: ds =>
    let here := o.rest before d.1
    (d, here) :: o.places here ds

theorem rests_eq (o : Outline) (before : Address) (ds : List (Span × Severity)) :
    o.rests before ds = (o.places before ds).map fun f => (f.2, f.1.2) := by
  induction ds generalizing before with
  | nil => rfl
  | cons d ds ih => rw [rests, ih]; rfl

theorem map_fst_places (o : Outline) (before : Address) (ds : List (Span × Severity)) :
    (o.places before ds).map Prod.fst = ds := by
  induction ds generalizing before with
  | nil => rfl
  | cons d ds ih => rw [places, List.map_cons, ih]

theorem exists_of_mem_places {before : Address} {ds : List (Span × Severity)}
    {f : (Span × Severity) × Address} (hf : f ∈ o.places before ds) : ∃ a, f.2 = o.rest a f.1.1 := by
  induction ds generalizing before with
  | nil => cases hf
  | cons d ds ih =>
    rcases List.mem_cons.1 hf with rfl | hf
    · exact ⟨before, rfl⟩
    · exact ih hf

theorem atHome_of_mem_places {before : Address} {ds : List (Span × Severity)}
    {f : (Span × Severity) × Address} (hf : f ∈ o.places before ds) (hne : f.2 ≠ []) :
    AtHome o f.1.1 f.2 := by
  obtain ⟨a, ha⟩ := exists_of_mem_places hf
  rw [ha] at hne ⊢
  exact atHome_rest (rest_ne_nil.1 hne)

theorem ne_nil_of_mem_places {before : Address} {ds : List (Span × Severity)}
    {f : (Span × Severity) × Address} (hf : f ∈ o.places before ds) (hin : Rooted o f.1.1) :
    f.2 ≠ [] := by
  obtain ⟨a, ha⟩ := exists_of_mem_places hf
  exact ha ▸ rest_ne_nil.2 (.inr hin)

/-- Every diagnostic that lies in an entry on the address where the one before rests lies in a root. -/
def Apart (o : Outline) (placed : List ((Span × Severity) × Address)) : Prop :=
  List.IsChain (fun e f => Along o e.2 f.1.1 → Rooted o f.1.1) placed

instance (o : Outline) (placed : List ((Span × Severity) × Address)) : Decidable (Apart o placed) :=
  inferInstanceAs (Decidable (List.IsChain _ placed))

theorem apart_cons_places {e : Span × Severity} {before : Address} {ds : List (Span × Severity)} :
    Apart o ((e, before) :: o.places before ds) ↔
      ∀ f ∈ o.places before ds, f.2 ≠ [] → Rooted o f.1.1 := by
  induction ds generalizing e before with
  | nil => simp [Apart, places]
  | cons d ds ih =>
    rw [places, Apart, List.isChain_cons_cons, ← Apart, ih]
    simp only [List.forall_mem_cons]
    refine and_congr ?_ Iff.rfl
    rw [rest_ne_nil]
    exact ⟨fun h hor => hor.elim h id, fun h ha => h (.inl ha)⟩

theorem apart_places {ds : List (Span × Severity)} :
    Apart o (o.places [] ds) ↔ ∀ f ∈ o.places [] ds, f.2 ≠ [] → Rooted o f.1.1 := by
  cases ds with
  | nil => simp [Apart, places]
  | cons d ds =>
    have hfirst : o.rest [] d.1 ≠ [] → Rooted o d.1 := fun hne =>
      (rest_ne_nil.1 hne).resolve_left not_along_nil
    rw [places, apart_cons_places, List.forall_mem_cons]
    exact (and_iff_right hfirst).symm

/-- The errors and warnings of a list that come to rest at an entry, each with its address. -/
def settled (o : Outline) (ds : List Diagnostic) : List ((Span × Severity) × Address) :=
  (o.places [] (Diagnostic.queue ds)).filter fun f => f.2 ≠ []

/-! ## What rests where -/

theorem mem_shareAt {found : List (Address × Severity)} {s : Severity} :
    (b, s) ∈ shareAt a found ↔ (a ++ b, s) ∈ found := by
  induction a generalizing found with
  | nil => rfl
  | cons n a ih =>
    rw [shareAt_cons, ih, share, List.mem_filterMap]
    constructor
    · rintro ⟨⟨_ | ⟨m, c⟩, r⟩, hf, h⟩
      · cases h
      · simp only [Option.ite_none_right_eq_some, Option.some.injEq, Prod.mk.injEq] at h
        obtain ⟨rfl, rfl, rfl⟩ := h
        exact hf
    · exact fun h => ⟨_, h, if_pos rfl⟩

theorem countP_shareAt (a : Address) (found : List (Address × Severity)) (s : Severity) :
    (shareAt a found).countP (fun f => f.1 = [] ∧ f.2 = s) =
      found.countP fun f => f.1 = a ∧ f.2 = s := by
  induction a generalizing found with
  | nil => rfl
  | cons n a ih =>
    rw [shareAt_cons, ih, share, List.countP_filterMap]
    refine List.countP_congr fun f _ => ?_
    obtain ⟨_ | ⟨m, c⟩, r⟩ := f
    · simp
    · by_cases hm : m = n <;> simp [hm]

/-- An address leads to a sibling numbered `n` or higher, or below it. -/
def onward (n : Nat) : Address → Bool
  | [] => false
  | m :: _ => n ≤ m

@[simp] theorem onward_nil (n : Nat) : onward n [] = false := rfl

@[simp] theorem onward_cons (n m : Nat) (a : Address) : onward n (m :: a) = decide (n ≤ m) := rfl

/-- What leads to siblings from one on is at that sibling, below it, or leads to those behind it. -/
theorem countP_onward (n : Nat) (found : List (Address × Severity)) (s : Severity) :
    found.countP (fun f => onward n f.1 ∧ f.2 = s) =
      (share n found).countP (fun f => f.1 = [] ∧ f.2 = s) +
        (share n found).countP (fun f => onward 0 f.1 ∧ f.2 = s) +
        found.countP fun f => onward (n + 1) f.1 ∧ f.2 = s := by
  induction found with
  | nil => rfl
  | cons f found ih =>
    obtain ⟨a, r⟩ := f
    rcases a with _ | ⟨m, a⟩
    · have hshare : share n (([], r) :: found) = share n found := by simp [share]
      rw [hshare, List.countP_cons, List.countP_cons, ih]
      simp
    · by_cases hm : m = n
      · have hshare : share n ((m :: a, r) :: found) = (a, r) :: share n found := by simp [share, hm]
        rw [hshare, List.countP_cons, List.countP_cons, List.countP_cons, List.countP_cons, ih]
        subst hm
        have hbehind : onward (m + 1) (m :: a) = false := decide_eq_false (Nat.not_succ_le_self m)
        simp only [hbehind]
        rcases a with _ | ⟨k, a⟩ <;> simp <;> omega
      · have hshare : share n ((m :: a, r) :: found) = share n found := by simp [share, hm]
        have hle : n ≤ m ↔ n + 1 ≤ m := by omega
        rw [hshare, List.countP_cons, List.countP_cons, ih]
        simp [hle, Nat.add_assoc]

/-- The entries together count what leads to one of them. -/
theorem sum_own {found : List (Address × Severity)} (hz : ∀ i ∈ valuesAll ts, i.tally = .zero)
    (hc : Countable found)
    (hlive : ∀ m b s, (m :: b, s) ∈ found → n ≤ m → (Forest.valueAt? ts ((m - n) :: b)).isSome)
    (s : Severity) :
    ((valuesAll (tallyFrom n found ts)).map fun i => (i.tally.own s).toNat).sum =
      found.countP fun f => onward n f.1 ∧ f.2 = s := by
  induction ts using induct_forest generalizing n found with
  | nil =>
    refine (List.countP_eq_zero.2 fun f hf => ?_).symm
    obtain ⟨_ | ⟨m, b⟩, r⟩ := f
    · simp
    · intro h
      simp only [onward_cons, decide_eq_true_eq] at h
      cases hlive m b r hf h.1
  | cons i cs ss ihc ih =>
    rw [valuesAll_cons, List.forall_mem_cons, List.forall_mem_append] at hz
    obtain ⟨hzi, hzc, hzs⟩ := hz
    have hshare : Countable (share n found) := hc.sublist (map_snd_share_sublist n found)
    have hhere : (((i.count (share n found)).tally).own s).toNat =
        (share n found).countP fun f => f.1 = [] ∧ f.2 = s := by
      rw [← hshare.toNat_own_add s, Item.count, hzi]
    have hbelow := ihc (n := 0) hzc hshare fun m b r hf _ => by
      have hmem : (n :: m :: b, r) ∈ found := mem_shareAt (a := [n]).1 hf
      have := hlive n (m :: b) r hmem (Nat.le_refl n)
      rwa [Nat.sub_self] at this
    have hbehind := ih (n := n + 1) hzs hc fun m b r hf hle => by
      have := hlive m b r hf (by omega)
      rwa [show m - n = m - (n + 1) + 1 by omega] at this
    rw [tallyFrom_cons, valuesAll_cons, List.map_cons, List.map_append, List.sum_cons, List.sum_append,
      hhere, hbelow, hbehind, countP_onward n found s, Nat.add_assoc]

/-! ## What entries count -/

section

variable {found : List (Address × Severity)} {s : Severity} {i : Item}

theorem countable_shareAt (hc : Countable found) (a : Address) : Countable (shareAt a found) := by
  induction a generalizing found with
  | nil => exact hc
  | cons n a ih => exact ih (hc.sublist (map_snd_share_sublist n found))

theorem tally_of_valueAt? (hz : ∀ i ∈ valuesAll ts, i.tally = .zero)
    (hi : Forest.valueAt? (tallyFrom 0 found ts) a = some i) :
    ∃ j, Forest.valueAt? ts a = some j ∧ i = j.count (shareAt a found) ∧
      i.tally = Tally.zero.add (shareAt a found) := by
  rw [valueAt?_tallyFrom] at hi
  obtain ⟨j, hj, rfl⟩ := Option.map_eq_some_iff.1 hi
  have hmem : j ∈ valuesAll ts := by
    cases a with
    | nil => cases hj
    | cons n a =>
      obtain ⟨u, hu, hj⟩ := Option.bind_eq_some_iff.1 hj
      exact value_mem_of_valueAt? (List.mem_of_getElem? hu) hj
  exact ⟨j, hj, rfl, by rw [Item.count, hz j hmem]⟩

/-- An entry counts what rests at its address. -/
theorem toNat_own (hz : ∀ i ∈ valuesAll ts, i.tally = .zero) (hc : Countable found)
    (hi : Forest.valueAt? (tallyFrom 0 found ts) a = some i) (s : Severity) :
    (i.tally.own s).toNat = found.countP fun f => f.1 = a ∧ f.2 = s := by
  obtain ⟨j, -, -, htally⟩ := tally_of_valueAt? hz hi
  rw [htally, (countable_shareAt hc a).toNat_own_add, countP_shareAt]

theorem exists_own_ne_zero (hz : ∀ i ∈ valuesAll ts, i.tally = .zero) (hc : Countable found)
    (hlive : ∀ f ∈ found, f.1 ≠ [] → (Forest.valueAt? ts f.1).isSome) :
    (∃ i ∈ Forest.valueAt? (tallyFrom 0 found ts) a, i.tally.own s ≠ 0) ↔ a ≠ [] ∧ (a, s) ∈ found := by
  have hpos : ∀ i, Forest.valueAt? (tallyFrom 0 found ts) a = some i →
      (i.tally.own s ≠ 0 ↔ (a, s) ∈ found) := by
    intro i hi
    have hzero : i.tally.own s = 0 ↔ (i.tally.own s).toNat = 0 := UInt32.toNat_inj.symm
    rw [ne_eq, hzero, toNat_own hz hc hi, List.countP_eq_zero]
    simp
  constructor
  · rintro ⟨i, hi, hne⟩
    have ha : a ≠ [] := by rintro rfl; cases hi
    exact ⟨ha, (hpos i hi).1 hne⟩
  · rintro ⟨ha, hmem⟩
    obtain ⟨j, hj⟩ := Option.isSome_iff_exists.1 (hlive _ hmem ha)
    have hi : Forest.valueAt? (tallyFrom 0 found ts) a = some (j.count (shareAt a found)) := by
      rw [valueAt?_tallyFrom, hj]; rfl
    exact ⟨_, hi, (hpos _ hi).2 hmem⟩

/-- An entry takes note of what entries below it count. -/
theorem below_iff (hz : ∀ i ∈ valuesAll ts, i.tally = .zero) (hc : Countable found)
    (hlive : ∀ f ∈ found, f.1 ≠ [] → (Forest.valueAt? ts f.1).isSome)
    (hi : Forest.valueAt? (tallyFrom 0 found ts) a = some i) (s : Severity) :
    i.tally.below s = true ↔
      ∃ b, a <+: b ∧ b ≠ a ∧ ∃ j ∈ Forest.valueAt? (tallyFrom 0 found ts) b, j.tally.own s ≠ 0 := by
  obtain ⟨j, hj, -, htally⟩ := tally_of_valueAt? hz hi
  have ha : a ≠ [] := by rintro rfl; cases hj
  rw [htally, (countable_shareAt hc a).below_add]
  constructor
  · rintro ⟨⟨c, r⟩, hf, hc0, rfl⟩
    exact ⟨a ++ c, List.prefix_append a c, by simpa using hc0,
      (exists_own_ne_zero hz hc hlive).2 ⟨by simp [ha], mem_shareAt.1 hf⟩⟩
  · rintro ⟨b, ⟨c, rfl⟩, hne, hown⟩
    exact ⟨(c, s), mem_shareAt.2 ((exists_own_ne_zero hz hc hlive).1 hown).2, by simpa using hne, rfl⟩

/-- What is touched are the entries with a tally. -/
theorem mem_touchedFrom_iff (hz : ∀ i ∈ valuesAll ts, i.tally = .zero) (hc : Countable found)
    {p : Path} : p ∈ touchedFrom 0 found ts ↔
      ∃ i ∈ valuesAll (tallyFrom 0 found ts), i.path = p ∧ i.tally ≠ .zero := by
  constructor
  · intro hp
    obtain ⟨i, hi, hpath, resting, hne, hsub, hmem⟩ := exists_of_mem_touchedFrom hp
    have hresting := hc.sublist hsub
    refine ⟨_, hmem, hpath, ?_⟩
    rw [Item.count, hz i hi]
    refine Tally.add_ne_zero hne (fun r hr => ?_) hresting.short
    obtain ⟨f, hf, rfl⟩ := List.mem_map.1 hr
    exact hresting.grave f hf
  · rintro ⟨i, hi, rfl, hne⟩
    obtain ⟨a, ha⟩ := exists_valueAt? hi
    obtain ⟨j, hj, rfl, htally⟩ := tally_of_valueAt? hz ha
    show j.path ∈ _
    refine path_mem_touchedFrom hj fun hnil => hne ?_
    rw [htally, hnil, Tally.add_nil]

end

/-! ## The diagnostics of a list -/

section

variable {ds : List Diagnostic}

theorem live_rests (o : Outline) (before : Address) (ds : List (Span × Severity)) :
    ∀ f ∈ o.rests before ds, f.1 ≠ [] → (Forest.valueAt? o f.1).isSome := by
  intro f hf hne
  rw [rests_eq] at hf
  obtain ⟨g, hg, rfl⟩ := List.mem_map.1 hf
  obtain ⟨⟨i, hi, -⟩, -⟩ := atHome_of_mem_places hg hne
  exact Option.isSome_iff_exists.2 ⟨i, hi⟩

theorem countable_rests (o : Outline) (hds : ds.length < UInt32.size) :
    Countable (o.rests [] (Diagnostic.queue ds)) := by
  have hmap := map_snd_rests o [] (Diagnostic.queue ds)
  obtain ⟨hlength, hgrave⟩ := Diagnostic.queue_spec ds
  refine ⟨fun f hf => hgrave f.2 (hmap ▸ List.mem_map_of_mem hf), ?_⟩
  have := congrArg List.length hmap
  rw [List.length_map, List.length_map] at this
  omega

theorem countP_settled (o : Outline) (ds : List Diagnostic) {p : Address → Bool} (hp : p [] = false)
    (s : Severity) :
    (o.rests [] (Diagnostic.queue ds)).countP (fun f => p f.1 ∧ f.2 = s) =
      (o.settled ds).countP fun f => p f.2 ∧ f.1.2 = s := by
  rw [rests_eq, List.countP_map, settled, List.countP_filter]
  refine List.countP_congr fun f _ => ?_
  by_cases hf : f.2 = []
  · simp [hf, hp]
  · simp [hf]

theorem map_fst_filter_places (o : Outline) (ds : List Diagnostic) :
    (((o.places [] (Diagnostic.queue ds)).filter fun f => Rooted o f.1.1).map Prod.fst).Perm
      ((ds.filterMap Diagnostic.grave?).filter fun d => Rooted o d.1) := by
  have hmap := List.filter_map (p := fun d : Span × Severity => decide (Rooted o d.1)) (f := Prod.fst)
    (l := o.places [] (Diagnostic.queue ds))
  rw [map_fst_places] at hmap
  exact hmap ▸ (List.mergeSort_perm _ _).filter _

theorem filter_settled (o : Outline) (ds : List Diagnostic) :
    (o.settled ds).filter (fun f => Rooted o f.1.1) =
      (o.places [] (Diagnostic.queue ds)).filter fun f => Rooted o f.1.1 := by
  rw [settled, List.filter_filter]
  refine List.filter_congr fun f hf => ?_
  by_cases hin : Rooted o f.1.1
  · simp [hin, ne_nil_of_mem_places hf hin]
  · simp [hin]

end

/-- What lies in an entry lies in a root if no entry reaches beyond the one right above it. -/
theorem rooted_of_mem (h : ∀ a n, ∀ i ∈ Forest.valueAt? o a, ∀ j ∈ Forest.valueAt? o (a ++ [n]),
    i.range.CoversLines j.range) {a : Address} {i : Item} {d : Span} (hi : Forest.valueAt? o a = some i)
    (hd : i.range.CoversLines d) : Rooted o d := by
  induction a using List.reverseRecOn generalizing i with
  | nil => cases hi
  | append_singleton a n ih =>
    by_cases ha : a = []
    · subst ha
      obtain ⟨t, ht, hi⟩ := Option.bind_eq_some_iff.1 hi
      obtain rfl : t.value = i := Option.some.inj hi
      exact ⟨t, List.mem_of_getElem? ht, hd⟩
    · obtain ⟨j, hj⟩ := mem_addresses.1
        (mem_addresses_above (mem_addresses.2 ⟨i, hi⟩) (List.prefix_append a [n]) ha)
      have hcovers := h a n j hj i hi
      exact ih hj ⟨hcovers.1.trans hd.1, hd.2.trans hcovers.2⟩

/-- No entry of a new outline has a tally. -/
theorem tally_of_mem_ofSymbols (hidden : List Kind) (symbols : Forest Symbol) :
    ∀ i ∈ (ofSymbols hidden symbols).items, i.tally = .zero := by
  intro i hi
  obtain ⟨key, detail, range, selection, p, rfl⟩ := fresh_of_mem_ofSymbols hi
  rfl

end Outline

/-! ## What is counted -/

namespace Badges

open Outline

/-- The entries count what is placed at them and nothing else, take note of what is counted below, and
are remembered if they have a tally. Otherwise they are as before. -/
structure Accounts (o : Outline) (placed : List ((Span × Severity) × Address)) (b : Badges)
    (o' : Outline) : Prop where
  same : o'.untally = o.untally
  home : ∀ f ∈ placed, AtHome o f.1.1 f.2
  own : ∀ a, ∀ i ∈ Forest.valueAt? o' a, ∀ s,
    (i.tally.own s).toNat = placed.countP fun f => f.2 = a ∧ f.1.2 = s
  sum : ∀ s, (o'.items.map fun i => (i.tally.own s).toNat).sum = placed.countP fun f => f.1.2 = s
  below : ∀ a, ∀ i ∈ Forest.valueAt? o' a, ∀ s, i.tally.below s = true ↔
    ∃ b, a <+: b ∧ b ≠ a ∧ ∃ j ∈ Forest.valueAt? o' b, j.tally.own s ≠ 0
  touched : ∀ p, p ∈ b.touched ↔ ∃ i ∈ o'.items, i.path = p ∧ i.tally ≠ .zero

/-- The errors and warnings that lie in some root, and no others, are counted, each once and at home. -/
def Accounted (o : Outline) (ds : List Diagnostic) : Prop :=
  ∃ placed, (placed.map Prod.fst).Perm
      ((ds.filterMap Diagnostic.grave?).filter fun d => Rooted o d.1) ∧
    Accounts o placed (Badges.none.apply o ds).1 (Badges.none.apply o ds).2.1

section

variable {o : Outline} {ds : List Diagnostic}

theorem accounts_apply (hz : ∀ i ∈ o.items, i.tally = .zero) (hds : ds.length < UInt32.size) :
    Accounts o (o.settled ds) (Badges.none.apply o ds).1 (Badges.none.apply o ds).2.1 where
  same := untally_apply .none o ds
  home f hf := by
    obtain ⟨hmem, hne⟩ := List.mem_filter.1 hf
    exact atHome_of_mem_places hmem (of_decide_eq_true hne)
  own a i hi s := by
    have ha : ([] : Address) ≠ a := by rintro rfl; cases hi
    have := countP_settled o ds (p := fun b => b = a) (by simpa using ha) s
    rw [toNat_own hz (countable_rests o hds) hi]
    simpa using this
  sum s := by
    have hlive := live_rests o [] (Diagnostic.queue ds)
    have hsum := sum_own (n := 0) hz (countable_rests o hds) (fun m b r hf _ => hlive _ hf (by simp)) s
    refine hsum.trans ((countP_settled o ds (p := onward 0) rfl s).trans ?_)
    refine List.countP_congr fun f hf => ?_
    obtain ⟨m, b, hb⟩ := List.exists_cons_of_ne_nil (of_decide_eq_true (List.mem_filter.1 hf).2)
    simp [hb]
  below a i hi s := below_iff hz (countable_rests o hds) (live_rests o [] _) hi s
  touched p := PathSet.mem_ofList.trans (mem_touchedFrom_iff hz (countable_rests o hds))

theorem accounted_iff (hz : ∀ i ∈ o.items, i.tally = .zero) (hds : ds.length < UInt32.size) :
    Accounted o ds ↔ Apart o (o.places [] (Diagnostic.queue ds)) := by
  rw [apart_places]
  constructor
  · rintro ⟨placed, hperm, hacc⟩ f hf hne
    -- of each severity as many are counted as lie in some root, so no other one is
    let p (g : (Span × Severity) × Address) : Bool := g.1.2 = f.1.2
    have hcount : ((o.settled ds).filter fun g => Rooted o g.1.1).countP p = (o.settled ds).countP p := by
      have hsum := (hacc.sum f.1.2).symm.trans ((accounts_apply hz hds).sum f.1.2)
      have hplaced := (hperm.trans (map_fst_filter_places o ds).symm).countP_eq fun d => d.2 = f.1.2
      rw [List.countP_map, List.countP_map] at hplaced
      rw [filter_settled]
      exact hplaced.symm.trans hsum
    have hsub := (List.filter_sublist (p := fun g => Rooted o g.1.1) (l := o.settled ds)).filter p
    have heq := hsub.eq_of_length (by rwa [← List.countP_eq_length_filter, ← List.countP_eq_length_filter])
    have hmem : f ∈ (o.settled ds).filter p :=
      List.mem_filter.2 ⟨List.mem_filter.2 ⟨hf, by simpa using hne⟩, by simp [p]⟩
    rw [← heq] at hmem
    simpa using (List.mem_filter.1 (List.mem_filter.1 hmem).1).2
  · intro h
    have hsame : o.settled ds = (o.places [] (Diagnostic.queue ds)).filter fun f => Rooted o f.1.1 := by
      refine List.filter_congr fun f hf => ?_
      exact decide_eq_decide.2 ⟨h f hf, ne_nil_of_mem_places hf⟩
    exact ⟨_, map_fst_filter_places o ds, hsame ▸ accounts_apply hz hds⟩

/-- Where no entry has a tally yet, putting down a list of diagnostics counts those that come to rest.
These are all errors and warnings that lie in a root, and others if they follow one that rests at or
below an entry around them; so it is just the former if none follow such a one. -/
theorem settled_apply (hz : ∀ i ∈ o.items, i.tally = .zero) (hds : ds.length < UInt32.size) :
    ((o.settled ds).map Prod.fst).Subperm (ds.filterMap Diagnostic.grave?) ∧
      (((o.settled ds).map Prod.fst).filter fun d => Rooted o d.1).Perm
        ((ds.filterMap Diagnostic.grave?).filter fun d => Rooted o d.1) ∧
      Accounts o (o.settled ds) (Badges.none.apply o ds).1 (Badges.none.apply o ds).2.1 ∧
      (Accounted o ds ↔ Apart o (o.places [] (Diagnostic.queue ds))) := by
  refine ⟨?_, ?_, accounts_apply hz hds, accounted_iff hz hds⟩
  · have hsub := (List.filter_sublist (p := fun f : (Span × Severity) × Address => f.2 ≠ [])
      (l := o.places [] (Diagnostic.queue ds))).map Prod.fst
    rw [map_fst_places] at hsub
    exact hsub.subperm.trans (List.mergeSort_perm _ _).subperm
  · rw [List.filter_map]
    have hsame := filter_settled o ds
    exact (congrArg (List.map Prod.fst) hsame).symm ▸ map_fst_filter_places o ds

/-- A class with an error in its method, and a warning behind it. -/
theorem settled_apply_nested :
    let method : Rose Symbol := node ⟨⟨.method, "m"⟩, .none, .ofLines 2 8, .ofLines 2 2⟩ []
    let o := ofSymbols [] [node ⟨⟨.classType, "A"⟩, .none, .ofLines 0 20, .ofLines 0 0⟩ [method]]
    let ds : List Diagnostic := [
      ⟨.ofLines 25 25, some .warning, .none, .none, ""⟩,
      ⟨.ofLines 4 4, some .error, .none, .none, ""⟩]
    (∀ i ∈ o.items, i.tally = .zero) ∧ ds.length < UInt32.size ∧
      ((o.settled ds).map Prod.fst).Subperm (ds.filterMap Diagnostic.grave?) ∧
      (((o.settled ds).map Prod.fst).filter fun d => Rooted o d.1).Perm
        ((ds.filterMap Diagnostic.grave?).filter fun d => Rooted o d.1) ∧
      Accounts o (o.settled ds) (Badges.none.apply o ds).1 (Badges.none.apply o ds).2.1 ∧
      (Accounted o ds ↔ Apart o (o.places [] (Diagnostic.queue ds))) := by
  intro method o ds
  have hz : ∀ i ∈ o.items, i.tally = .zero := tally_of_mem_ofSymbols _ _
  have hds : ds.length < UInt32.size := by decide
  exact ⟨hz, hds, settled_apply hz hds⟩

/-- Where no entry reaches beyond the one right above it, it is the errors and warnings that lie in
some root, and no others, that are counted. -/
theorem accounted_of_covers (hz : ∀ i ∈ o.items, i.tally = .zero) (hds : ds.length < UInt32.size)
    (h : ∀ a n, ∀ i ∈ Forest.valueAt? o a, ∀ j ∈ Forest.valueAt? o (a ++ [n]),
      i.range.CoversLines j.range) : Accounted o ds := by
  refine (accounted_iff hz hds).2 (apart_places.2 fun f hf hne => ?_)
  obtain ⟨⟨i, hi, hd⟩, -⟩ := atHome_of_mem_places hf hne
  exact rooted_of_mem h hi hd

end

/-- An error in a method that reaches beyond its class, and another one further down in the method but
below the class: both are counted, though no root contains the second. -/
theorem not_accounted_escaping :
    let method : Rose Symbol := node ⟨⟨.method, "m"⟩, .none, .ofLines 3 10, .ofLines 3 10⟩ []
    let o := ofSymbols [] [node ⟨⟨.classType, "A"⟩, .none, .ofLines 0 5, .ofLines 0 5⟩ [method]]
    let error (line : Nat) : Diagnostic := ⟨.ofLines line line, some .error, .none, .none, ""⟩
    ¬ Accounted o [error 4, error 8] := by
  intro method o error h
  refine absurd ((accounted_iff (tally_of_mem_ofSymbols _ _) (by decide)).1 h) ?_
  rw [Diagnostic.queue_eq_insertionSort]
  decide +kernel

end Badges

end SymbolOutline
