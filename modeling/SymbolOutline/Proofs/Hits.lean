import Mathlib.Data.List.Nodup
import SymbolOutline.Outline.Query
import SymbolOutline.Proofs.Carries
import SymbolOutline.Proofs.Insertion

/-
What a query finds in range, entry by entry. Two entries may be the same item, so the entries found
are told apart by their addresses (`hits`). A query visits the entries above which all entries overlap
the lines it asks for. It finds those of them that start within the lines, and each list of siblings
may give one entry more that the lines lie in. That one is taken where nothing ahead of it in its list
matches, nor anything below it (`mem_hitsIn`); what comes behind it is not looked at. So it need not
be the only one found in its list (`inRange_search`, `inRange_search_cursor`).
-/

namespace SymbolOutline

open Rose Forest

namespace Outline

variable {q : Lines} {found : Bool} {i : Item} {t : Rose Item} {cs ss ts : Forest Item}
  {a b : List Nat}

/-! ## The entries found -/

mutual
/-- The addresses, in a tree, of what a query finds in range. -/
def hitsAt (q : Lines) (found : Bool) : Rose Item → List (List Nat)
  | .node i ts =>
    let below := if q.Overlaps i then hitsIn q false ts else []
    if q.Starts i then [] :: below
    else if found = false ∧ below = [] ∧ q.LiesIn i then [[]]
    else below
/-- The addresses, in a forest, of what a query finds in range. `found` says whether anything was
found before. -/
def hitsIn (q : Lines) (found : Bool) : Forest Item → List (List Nat)
  | [] => []
  | t :: ts =>
    let here := hitsAt q found t
    here.map (0 :: ·) ++ (hitsIn q (found || !here.isEmpty) ts).map shift
end

/-- The addresses of the entries a query finds in range, in the order it finds them. -/
def hits (q : Lines) (o : Outline) : List (List Nat) := hitsIn q false o

/-- The addresses of what a query finds below an item. -/
def hitsBelow (q : Lines) (i : Item) (ts : Forest Item) : List (List Nat) :=
  if q.Overlaps i then hitsIn q false ts else []

theorem hitsAt_node (q : Lines) (found : Bool) (i : Item) (ts : Forest Item) :
    hitsAt q found (node i ts) =
      if q.Starts i then [] :: hitsBelow q i ts
      else if found = false ∧ hitsBelow q i ts = [] ∧ q.LiesIn i then [[]]
      else hitsBelow q i ts := by
  rw [hitsAt]; rfl

theorem ne_nil_of_mem_hitsIn (h : a ∈ hitsIn q found ts) : a ≠ [] := by
  induction ts generalizing found a with
  | nil => cases h
  | cons t ts ih =>
    rcases List.mem_append.1 h with h | h
    · obtain ⟨b, -, rfl⟩ := List.mem_map.1 h
      exact List.cons_ne_nil 0 b
    · obtain ⟨b, hb, rfl⟩ := List.mem_map.1 h
      obtain ⟨n, b, rfl⟩ := List.exists_cons_of_ne_nil (ih hb)
      exact List.cons_ne_nil (n + 1) b

theorem mem_hitsBelow : a ∈ hitsBelow q i cs ↔ q.Overlaps i ∧ a ∈ hitsIn q false cs := by
  unfold hitsBelow
  split <;> simp_all

theorem nil_notMem_hitsBelow : [] ∉ hitsBelow q i cs :=
  fun h => ne_nil_of_mem_hitsIn (mem_hitsBelow.1 h).2 rfl

theorem nil_mem_hitsAt : [] ∈ hitsAt q found (node i cs) ↔
    q.Starts i ∨ found = false ∧ hitsBelow q i cs = [] ∧ q.LiesIn i := by
  have hnil : [] ∉ hitsBelow q i cs := nil_notMem_hitsBelow
  rw [hitsAt_node]
  split
  · simp [*]
  · split <;> simp_all

theorem cons_mem_hitsAt {n : Nat} : n :: a ∈ hitsAt q found (node i cs) ↔
    q.Overlaps i ∧ n :: a ∈ hitsIn q false cs := by
  rw [hitsAt_node, ← mem_hitsBelow]
  split
  · simp
  · split <;> simp_all

theorem zero_mem_hitsIn : 0 :: a ∈ hitsIn q found (t :: ss) ↔ a ∈ hitsAt q found t := by
  rw [hitsIn, List.mem_append, List.mem_map, List.mem_map]
  constructor
  · rintro (⟨b, hb, h⟩ | ⟨b, -, h⟩)
    · exact (List.cons.inj h).2 ▸ hb
    · cases b <;> simp [shift] at h
  · exact fun h => .inl ⟨a, h, rfl⟩

theorem succ_mem_hitsIn {n : Nat} : (n + 1) :: a ∈ hitsIn q found (t :: ss) ↔
    n :: a ∈ hitsIn q (found || !(hitsAt q found t).isEmpty) ss := by
  change shift (n :: a) ∈ _ ↔ _
  rw [hitsIn, List.mem_append, List.mem_map_of_injective shift_injective]
  refine or_iff_right fun h => ?_
  obtain ⟨b, -, h⟩ := List.mem_map.1 h
  simp [shift] at h

/-- No entry is found twice. -/
theorem nodup_hitsIn (q : Lines) (found : Bool) (ts : Forest Item) : (hitsIn q found ts).Nodup := by
  induction ts using induct_forest generalizing found with
  | nil => exact .nil
  | cons i cs ss ihc ih =>
    have hbelow : (hitsBelow q i cs).Nodup := by
      unfold hitsBelow
      split
      · exact ihc false
      · exact .nil
    have hhere : (hitsAt q found (node i cs)).Nodup := by
      rw [hitsAt_node]
      split
      · exact List.nodup_cons.2 ⟨nil_notMem_hitsBelow, hbelow⟩
      · split
        · exact List.nodup_singleton _
        · exact hbelow
    refine List.nodup_append.2 ⟨?_, (ih _).map shift_injective, ?_⟩
    · exact hhere.map fun _ _ h => (List.cons.inj h).2
    · intro a ha b hb h
      obtain ⟨c, -, rfl⟩ := List.mem_map.1 ha
      obtain ⟨d, -, rfl⟩ := List.mem_map.1 hb
      cases d <;> simp [shift] at h

/-! ## The items found -/

/-- What is in range, and what the next sibling is told, can be read off the entries found. -/
def ReadOff (q : Lines) (ts : Forest Item) : Prop :=
  ∀ found, (visitAll q found ts).1.inRange.map some = (hitsIn q found ts).map (valueAt? ts) ∧
    (visitAll q found ts).2 = (found || !(hitsIn q found ts).isEmpty)

theorem visit_eq (h : ReadOff q cs) (found : Bool) :
    (visit q found (node i cs)).1.inRange.map some =
        (hitsAt q found (node i cs)).map (node i cs).valueAt? ∧
      (visit q found (node i cs)).2 = (found || !(hitsAt q found (node i cs)).isEmpty) := by
  obtain ⟨hvals, hflag⟩ := h false
  have htop : (node i cs).valueAt? [] = some i := rfl
  have hbelow : (hitsIn q false cs).map (node i cs).valueAt? = (hitsIn q false cs).map (valueAt? cs) :=
    List.map_congr_left fun a ha => valueAt?_of_ne_nil (ne_nil_of_mem_hitsIn ha)
  rw [← hbelow] at hvals
  -- both sides ask the same of the item and of what is below it
  cases found <;> by_cases ho : q.Overlaps i <;> by_cases hs : q.Starts i <;>
    by_cases hl : q.LiesIn i <;> cases hc : hitsIn q false cs <;>
    simp_all [visit, hitsAt, Findings.none]

theorem readOff (q : Lines) (ts : Forest Item) : ReadOff q ts := by
  induction ts using induct_forest with
  | nil => intro found; simp [visitAll, hitsIn, Findings.none]
  | cons i cs ss ihc ih =>
    intro found
    obtain ⟨hhere, hflag⟩ := visit_eq (i := i) ihc found
    obtain ⟨hlater, hflag'⟩ := ih (found || !(hitsAt q found (node i cs)).isEmpty)
    rw [← hflag] at hlater hflag'
    constructor
    · have hshift : valueAt? (node i cs :: ss) ∘ shift = valueAt? ss := funext (valueAt?_shift _ ss)
      simp only [visitAll, hitsIn, Findings.and, List.map_append, List.map_map, hhere, hlater, hshift,
        ← hflag]
      rfl
    · rw [visitAll, hflag', hflag, hitsIn]
      cases hitsAt q found (node i cs) <;> simp

/-! ## Which entries are found -/

/-- An item starts within the lines, or the lines lie in it. -/
def Lines.Matches (q : Lines) (i : Item) : Prop := q.Starts i ∨ q.LiesIn i

/-- An entry has a property, and all entries above it overlap the lines. -/
def Visits (q : Lines) (ts : Forest Item) (P : Item → Prop) (a : List Nat) : Prop :=
  (∃ i ∈ valueAt? ts a, P i) ∧ ∀ b, b <+: a → b ≠ a → ∀ i ∈ valueAt? ts b, q.Overlaps i

section

variable {P : Item → Prop}

theorem not_visits_nil : ¬ Visits q ts P [] := by
  rintro ⟨⟨i, hi, -⟩, -⟩
  cases hi

theorem not_nil_visits : ¬ Visits q [] P a := by
  rintro ⟨⟨i, hi, -⟩, -⟩
  cases a <;> cases hi

theorem visits_top : Visits q (node i cs :: ss) P [0] ↔ P i := by
  constructor
  · rintro ⟨⟨j, hj, hp⟩, -⟩
    obtain rfl : i = j := Option.some.inj hj
    exact hp
  · intro hp
    refine ⟨⟨i, rfl, hp⟩, fun b hb hne j hj => ?_⟩
    rcases List.prefix_cons_iff.1 hb with rfl | ⟨c, rfl, hc⟩
    · cases hj
    · exact absurd (List.prefix_nil.1 hc ▸ rfl) hne

theorem visits_below (ha : a ≠ []) :
    Visits q (node i cs :: ss) P (0 :: a) ↔ q.Overlaps i ∧ Visits q cs P a := by
  unfold Visits
  rw [valueAt?_zero ha]
  constructor
  · rintro ⟨hval, habove⟩
    refine ⟨habove [0] (by simp) (by simpa using ha.symm) i rfl, hval, fun b hb hne j hj => ?_⟩
    have hb0 : b ≠ [] := by rintro rfl; cases hj
    exact habove (0 :: b) (List.cons_prefix_cons.2 ⟨rfl, hb⟩) (by simpa using hne) j
      ((valueAt?_zero hb0 i cs ss).symm ▸ hj)
  · rintro ⟨ho, hval, habove⟩
    refine ⟨hval, fun b hb hne j hj => ?_⟩
    rcases List.prefix_cons_iff.1 hb with rfl | ⟨c, rfl, hc⟩
    · cases hj
    by_cases hc0 : c = []
    · subst hc0
      obtain rfl : i = j := Option.some.inj hj
      exact ho
    · rw [valueAt?_zero hc0] at hj
      exact habove c hc (by simpa using hne) j hj

theorem visits_shift : Visits q (t :: ss) P (shift a) ↔ Visits q ss P a := by
  unfold Visits
  rw [valueAt?_shift]
  refine and_congr_right fun ⟨i, hi, _⟩ => ?_
  have ha : a ≠ [] := by rintro rfl; cases hi
  constructor
  · intro habove b hb hne j hj
    refine habove (shift b) ((shift_prefix_shift ha).2 hb) (shift_injective.ne hne) j ?_
    rwa [valueAt?_shift]
  · intro habove b hb hne j hj
    cases b with
    | nil => cases hj
    | cons n b =>
      obtain ⟨m, c, rfl⟩ := List.exists_cons_of_ne_nil ha
      obtain ⟨rfl, hbc⟩ := List.cons_prefix_cons.1 hb
      exact habove (m :: b) (List.cons_prefix_cons.2 ⟨rfl, hbc⟩) (by simpa [shift] using hne) j hj

end

theorem hitsBelow_eq_nil (ss : Forest Item)
    (h : hitsIn q false cs = [] ↔ ∀ a, ¬ Visits q cs q.Matches a) :
    hitsBelow q i cs = [] ↔ ∀ a, a ≠ [] → ¬ Visits q (node i cs :: ss) q.Matches (0 :: a) := by
  unfold hitsBelow
  split
  · rename_i ho
    rw [h]
    constructor
    · exact fun hnone a ha hm => hnone a ((visits_below ha).1 hm).2
    · intro hnone a hm
      have ha : a ≠ [] := fun e => not_visits_nil (e ▸ hm)
      exact hnone a ha ((visits_below ha).2 ⟨ho, hm⟩)
  · rename_i ho
    exact iff_of_true rfl fun a ha hm => ho ((visits_below ha).1 hm).1

/-- Where nothing was found before, nothing is found in a tree if no entry in it matches. -/
theorem hitsAt_eq_nil (ss : Forest Item)
    (h : hitsIn q false cs = [] ↔ ∀ a, ¬ Visits q cs q.Matches a) :
    hitsAt q false (node i cs) = [] ↔ ∀ a, ¬ Visits q (node i cs :: ss) q.Matches (0 :: a) := by
  have hnode : hitsAt q false (node i cs) = [] ↔ ¬ q.Matches i ∧ hitsBelow q i cs = [] := by
    rw [hitsAt_node]
    unfold Lines.Matches
    split
    · simp_all
    · split <;> simp_all
  rw [hnode, hitsBelow_eq_nil ss h]
  constructor
  · rintro ⟨htop, hrest⟩ a
    cases a with
    | nil => exact fun hm => htop (visits_top.1 hm)
    | cons n a => exact hrest (n :: a) (List.cons_ne_nil n a)
  · exact fun hnone => ⟨fun hi => hnone [] (visits_top.2 hi), fun a _ => hnone a⟩

/-- Where nothing was found before, nothing is found in a forest if no entry in it matches. -/
theorem hitsIn_eq_nil (q : Lines) (ts : Forest Item) :
    hitsIn q false ts = [] ↔ ∀ a, ¬ Visits q ts q.Matches a := by
  induction ts using induct_forest with
  | nil => exact iff_of_true rfl fun a => not_nil_visits
  | cons i cs ss ihc ih =>
    have hnil : hitsIn q false (node i cs :: ss) = [] ↔
        hitsAt q false (node i cs) = [] ∧ hitsIn q false ss = [] := by
      cases hc : hitsAt q false (node i cs) <;> simp [hitsIn, hc]
    rw [hnil, hitsAt_eq_nil ss ihc, ih]
    constructor
    · rintro ⟨hhere, hlater⟩ a hm
      rcases a with _ | ⟨_ | n, c⟩
      · exact not_visits_nil hm
      · exact hhere c hm
      · exact hlater (n :: c) (visits_shift.1 hm)
    · intro h
      exact ⟨fun a => h (0 :: a), fun a ha => h (shift a) (visits_shift.2 ha)⟩

/-- An address is that of an earlier sibling of another one, or is below a sibling that is not later. -/
def Ahead (b a : List Nat) : Prop :=
  ∃ p m n c, a = p ++ [m] ∧ b = p ++ n :: c ∧ (n < m ∨ n = m ∧ c ≠ [])

theorem ahead_singleton {m : Nat} :
    Ahead b [m] ↔ ∃ n c, b = n :: c ∧ (n < m ∨ n = m ∧ c ≠ []) := by
  constructor
  · rintro ⟨p, k, n, c, ha, rfl, h⟩
    obtain ⟨rfl, rfl⟩ : p = [] ∧ m = k := by
      cases p <;> simp_all
    exact ⟨n, c, rfl, h⟩
  · rintro ⟨n, c, rfl, h⟩
    exact ⟨[], m, n, c, rfl, rfl, h⟩

theorem ahead_cons {n : Nat} (ha : a ≠ []) : Ahead b (n :: a) ↔ ∃ c, b = n :: c ∧ Ahead c a := by
  constructor
  · rintro ⟨p, k, m, c, hp, rfl, h⟩
    cases p with
    | nil => exact absurd (List.cons.inj hp).2 ha
    | cons l p =>
      obtain ⟨rfl, rfl⟩ := List.cons.inj hp
      exact ⟨p ++ m :: c, rfl, p, k, m, c, rfl, rfl, h⟩
  · rintro ⟨c, rfl, p, k, m, d, rfl, rfl, h⟩
    exact ⟨n :: p, k, m, d, rfl, rfl, h⟩

theorem ne_nil_of_ahead (h : Ahead b a) : b ≠ [] := by
  obtain ⟨p, m, n, c, -, rfl, -⟩ := h
  simp

/-- No entry ahead of an entry starts within the lines or has them lie in it. -/
def NoneAhead (q : Lines) (ts : Forest Item) (a : List Nat) : Prop :=
  ∀ b, Ahead b a → ¬ Visits q ts q.Matches b

theorem noneAhead_top : NoneAhead q (node i cs :: ss) [0] ↔ hitsBelow q i cs = [] := by
  rw [hitsBelow_eq_nil ss (hitsIn_eq_nil q cs)]
  constructor
  · exact fun h c hc => h (0 :: c) (ahead_singleton.2 ⟨0, c, rfl, .inr ⟨rfl, hc⟩⟩)
  · intro h b hb
    obtain ⟨n, c, rfl, hn | ⟨rfl, hc⟩⟩ := ahead_singleton.1 hb
    · exact absurd hn (Nat.not_lt_zero n)
    · exact h c hc

theorem noneAhead_below (ho : q.Overlaps i) (ha : a ≠ []) :
    NoneAhead q (node i cs :: ss) (0 :: a) ↔ NoneAhead q cs a := by
  constructor
  · intro h b hb hm
    exact h (0 :: b) ((ahead_cons ha).2 ⟨b, rfl, hb⟩) ((visits_below (ne_nil_of_ahead hb)).2 ⟨ho, hm⟩)
  · intro h b hb hm
    obtain ⟨c, rfl, hc⟩ := (ahead_cons ha).1 hb
    exact h c hc ((visits_below (ne_nil_of_ahead hc)).1 hm).2

theorem succ_ahead_succ {m n : Nat} : Ahead ((n + 1) :: b) ((m + 1) :: a) ↔ Ahead (n :: b) (m :: a) := by
  by_cases ha : a = []
  · subst ha
    simp [ahead_singleton]
  · simp [ahead_cons ha]

theorem zero_ahead_succ {m : Nat} : Ahead (0 :: b) ((m + 1) :: a) ↔ a = [] := by
  by_cases ha : a = []
  · subst ha
    simp [ahead_singleton]
  · simp [ahead_cons ha, ha]

theorem noneAhead_succ {m : Nat} : NoneAhead q (node i cs :: ss) ((m + 1) :: a) ↔
    NoneAhead q ss (m :: a) ∧ (a = [] → hitsAt q false (node i cs) = []) := by
  rw [hitsAt_eq_nil ss (hitsIn_eq_nil q cs)]
  constructor
  · intro h
    refine ⟨fun b hb hm => ?_, fun ha c => h (0 :: c) (zero_ahead_succ.2 ha)⟩
    obtain ⟨n, c, rfl⟩ := List.exists_cons_of_ne_nil (ne_nil_of_ahead hb)
    exact h ((n + 1) :: c) (succ_ahead_succ.2 hb) (visits_shift.2 hm)
  · rintro ⟨hlater, hhere⟩ b hb hm
    rcases b with _ | ⟨_ | n, c⟩
    · exact ne_nil_of_ahead hb rfl
    · exact hhere (zero_ahead_succ.1 hb) c hm
    · exact hlater (n :: c) (succ_ahead_succ.1 hb) (visits_shift.1 hm)

/-- The entries a query finds in a forest. Those that start within the lines are found anyhow; one the
lines lie in is if nothing ahead of it matches, unless it is a root and something was found before. -/
theorem mem_hitsIn : a ∈ hitsIn q found ts ↔ Visits q ts q.Starts a ∨
    Visits q ts q.LiesIn a ∧ NoneAhead q ts a ∧ (a.length = 1 → found = false) := by
  induction ts using induct_forest generalizing found a with
  | nil => simp [hitsIn, not_nil_visits]
  | cons i cs ss ihc ih =>
    rcases a with _ | ⟨_ | n, c⟩
    · simp only [not_visits_nil, false_and, or_self, iff_false]
      exact fun h => ne_nil_of_mem_hitsIn h rfl
    · by_cases hc : c = []
      · subst hc
        rw [zero_mem_hitsIn, nil_mem_hitsAt, visits_top, visits_top, noneAhead_top]
        simp only [List.length_singleton, true_imp_iff, and_comm, and_assoc]
      · obtain ⟨m, d, rfl⟩ := List.exists_cons_of_ne_nil hc
        rw [zero_mem_hitsIn, cons_mem_hitsAt, ihc, visits_below hc, visits_below hc]
        by_cases ho : q.Overlaps i
        · simp [ho, noneAhead_below ho hc]
        · simp [ho]
    · have hflag : (found || !(hitsAt q found (node i cs)).isEmpty) = false ↔
          found = false ∧ hitsAt q false (node i cs) = [] := by
        cases found <;> simp
      have hvals : ∀ P, Visits q (node i cs :: ss) P ((n + 1) :: c) ↔ Visits q ss P (n :: c) :=
        fun P => visits_shift (a := n :: c)
      rw [succ_mem_hitsIn, ih, hflag, hvals, hvals, noneAhead_succ]
      simp only [List.length_cons, Nat.add_eq_right, List.length_eq_zero_iff, and_assoc, imp_and]
      simp only [and_comm]

/-- Below an entry where some entry matches, some entry is found. -/
theorem exists_mem_hitsIn_below (found : Bool) (ha : a ≠ []) (hb : b ≠ [])
    (hm : Visits q ts q.Matches (a ++ b)) :
    ∃ c, c ≠ [] ∧ a ++ c ∈ hitsIn q found ts := by
  induction ts using induct_forest generalizing found a with
  | nil => exact absurd hm not_nil_visits
  | cons i cs ss ihc ih =>
    rcases a with _ | ⟨_ | n, a⟩
    · exact absurd rfl ha
    · rw [List.cons_append, visits_below (List.append_ne_nil_of_right_ne_nil a hb)] at hm
      obtain ⟨ho, hm⟩ := hm
      by_cases ha' : a = []
      · subst ha'
        have hne : hitsIn q false cs ≠ [] := fun h => (hitsIn_eq_nil q cs).1 h b hm
        obtain ⟨c, hc⟩ := List.exists_mem_of_ne_nil _ hne
        obtain ⟨n, c, rfl⟩ := List.exists_cons_of_ne_nil (ne_nil_of_mem_hitsIn hc)
        exact ⟨n :: c, List.cons_ne_nil n c, zero_mem_hitsIn.2 (cons_mem_hitsAt.2 ⟨ho, hc⟩)⟩
      · obtain ⟨c, hc, hmem⟩ := ihc false ha' hm
        obtain ⟨n, a, rfl⟩ := List.exists_cons_of_ne_nil ha'
        exact ⟨c, hc, zero_mem_hitsIn.2 (cons_mem_hitsAt.2 ⟨ho, hmem⟩)⟩
    · obtain ⟨c, hc, hmem⟩ := ih (found || !(hitsAt q found (node i cs)).isEmpty)
        (List.cons_ne_nil n a) (visits_shift.1 hm)
      exact ⟨c, hc, succ_mem_hitsIn.2 hmem⟩

/-! ## Entries the lines lie in -/

/-- The lines lie in an entry that does not start within them, and nothing ahead of it matches. -/
def Fallback (q : Lines) (o : Outline) (a : List Nat) : Prop :=
  Visits q o q.LiesIn a ∧ ¬ Visits q o q.Starts a ∧ NoneAhead q o a

/-- An address is that of a sibling of another one, or is below a sibling or below itself. -/
def Kin (b a : List Nat) : Prop := ∃ p m n c, a = p ++ [m] ∧ b = p ++ n :: c

/-- An address is that of a later sibling of another one, or is below such a sibling. -/
def Behind (b a : List Nat) : Prop := ∃ p m n c, a = p ++ [m] ∧ b = p ++ n :: c ∧ m < n

/-- Each entry found that does not start within the lines has them lie in it, and nothing else is
found among its siblings, or below them or it. -/
def LastResort (q : Lines) (o : Outline) : Prop :=
  ∀ a ∈ hits q o, ∀ i ∈ valueAt? o a, ¬ q.Starts i →
    q.LiesIn i ∧ ∀ b ∈ hits q o, Kin b a → b = a

variable {o : Outline}

theorem mem_hits : a ∈ hits q o ↔ Visits q o q.Starts a ∨ Fallback q o a := by
  rw [hits, mem_hitsIn, Fallback]
  by_cases h : Visits q o q.Starts a <;> simp [h]

theorem matches_of_mem_hits (h : a ∈ hits q o) : Visits q o q.Matches a := by
  rcases mem_hits.1 h with ⟨⟨i, hi, hs⟩, habove⟩ | ⟨⟨⟨i, hi, hl⟩, habove⟩, -⟩
  · exact ⟨⟨i, hi, .inl hs⟩, habove⟩
  · exact ⟨⟨i, hi, .inr hl⟩, habove⟩

/-- An entry the lines lie in is taken as if it were the only one found among its siblings. It is if
none of the later ones starts within the lines and nothing below these matches. -/
theorem lastResort_iff : LastResort q o ↔ ∀ a b, Fallback q o a → Behind b a →
    ¬ Visits q o q.Starts b ∧ (b.length ≠ a.length → ¬ Visits q o q.LiesIn b) := by
  constructor
  · rintro h a b ha ⟨p, m, n, c, rfl, rfl, hmn⟩
    have hmem := mem_hits.2 (.inr ha)
    obtain ⟨⟨⟨i, hi, hl⟩, habove⟩, hns, -⟩ := ha
    have honly := (h _ hmem i hi fun hs => hns ⟨⟨i, hi, hs⟩, habove⟩).2
    have hne : ∀ d, p ++ n :: d ≠ p ++ [m] := fun d e => by
      have := (List.cons.inj (List.append_cancel_left e)).1
      omega
    refine ⟨fun hs => ?_, fun hlen hlb => ?_⟩
    · exact hne c (honly _ (mem_hits.2 (.inl hs)) ⟨p, m, n, c, rfl, rfl⟩)
    · have hc : c ≠ [] := fun e => hlen (by simp [e])
      obtain ⟨⟨j, hj, hlj⟩, habove⟩ := hlb
      have hmatch : Visits q o q.Matches ((p ++ [n]) ++ c) := by
        rw [List.append_assoc]
        exact ⟨⟨j, hj, .inr hlj⟩, habove⟩
      obtain ⟨d, -, hd⟩ := exists_mem_hitsIn_below false (by simp) hc hmatch
      rw [List.append_assoc] at hd
      exact hne d (honly _ hd ⟨p, m, n, d, rfl, rfl⟩)
  · intro h a ha i hi hns
    have hfall : Fallback q o a := by
      rcases mem_hits.1 ha with ⟨⟨j, hj, hs⟩, -⟩ | hfall
      · exact absurd (Option.some.inj (hi.symm.trans hj) ▸ hs) hns
      · exact hfall
    refine ⟨?_, ?_⟩
    · obtain ⟨⟨⟨j, hj, hl⟩, -⟩, -⟩ := hfall
      exact Option.some.inj (hj.symm.trans hi) ▸ hl
    · rintro b hb ⟨p, m, n, c, rfl, rfl⟩
      rcases Nat.lt_trichotomy n m with hlt | rfl | hgt
      · exact absurd (matches_of_mem_hits hb) (hfall.2.2 _ ⟨p, m, n, c, rfl, rfl, .inl hlt⟩)
      · by_contra hne
        have hc : c ≠ [] := fun e => hne (e ▸ rfl)
        exact hfall.2.2 _ ⟨p, n, n, c, rfl, rfl, .inr ⟨rfl, hc⟩⟩ (matches_of_mem_hits hb)
      · obtain ⟨hns', hlen⟩ := h _ _ hfall ⟨p, m, n, c, rfl, rfl, hgt⟩
        obtain ⟨hl, -, hahead⟩ := (mem_hits.1 hb).resolve_left hns'
        have hc : c = [] := by
          by_contra hc
          exact hlen (by simpa using hc) hl
        subst hc
        exact absurd (matches_of_mem_hits ha) (hahead _ ⟨p, n, m, [], rfl, rfl, .inl hgt⟩)

/-- What is in range for a query. The items are those of some entries, in order and none twice: of all
that start within the lines and that the query gets to, and of those taken because the lines lie in
them and nothing ahead of them matches. Such an entry is found alone among its siblings and all that
is below them if, and only if, nothing behind it could be found. -/
theorem inRange_search (q : Lines) (o : Outline) :
    (search q o).inRange.map some = (hits q o).map (valueAt? o) ∧ (hits q o).Nodup ∧
      (∀ a, a ∈ hits q o ↔ Visits q o q.Starts a ∨ Fallback q o a) ∧
      (LastResort q o ↔ ∀ a b, Fallback q o a → Behind b a →
        ¬ Visits q o q.Starts b ∧ (b.length ≠ a.length → ¬ Visits q o q.LiesIn b)) :=
  ⟨(readOff q o false).1, nodup_hitsIn q false o, fun _ => mem_hits, lastResort_iff⟩

theorem not_lastResort (ha : a ∈ hits q o) (hs : (valueAt? o a).any fun i => ¬ q.Starts i)
    (hb : b ∈ hits q o) (hk : Kin b a) (hne : b ≠ a) : ¬ LastResort q o := by
  obtain ⟨i, hi, hs⟩ := Option.any_eq_true _ _ |>.1 hs
  exact fun h => hne ((h a ha i hi (of_decide_eq_true hs)).2 b hb hk)

/-- A function at the cursor, taken because no other one was found before it, and the one behind it
that starts on the same line: both are found. -/
theorem inRange_search_cursor :
    let item (name : String) (range : Span) : Rose Symbol :=
      node ⟨⟨.function, name⟩, none, range, range⟩ []
    let o := ofSymbols [] [item "a" (.ofCoords 0 0 5 3), item "b" (.ofCoords 5 4 5 9)]
    let q := linesOf (.ofLines 5 5)
    (search q o).inRange.map (·.key.name) = ["a", "b"] ∧ ¬ LastResort q o := by
  intro item o q
  have ho : o = ofForest (inserted (visible []
      [item "a" (.ofCoords 0 0 5 3), item "b" (.ofCoords 5 4 5 9)])) := ofSymbols_eq_inserted _ _
  rw [ho]
  refine ⟨by decide +kernel, not_lastResort (a := [0]) (b := [1]) ?_ ?_ ?_ ⟨[], 0, 1, [], rfl, rfl⟩ (by decide)⟩
  all_goals decide +kernel

end Outline

end SymbolOutline
