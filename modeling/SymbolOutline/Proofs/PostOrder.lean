import SymbolOutline.Proofs.Ancestry
import SymbolOutline.Proofs.Hits
import SymbolOutline.Proofs.Insertion

/-
What a query comes back from, entry by entry and in post-order.

A query lists what overlaps its lines, and what it has missed, on its way back up. So each list holds the
entries at some addresses in post-order, none twice (`Listed`), and the addresses are known from one
step: an entry, what is below it and what is beside it (`Listed.cons`). An entry is listed as overlapping
just if it and all above it overlap the lines (`listed_overlapping`). Where no entry leaves the lines of
the one above it, those are all that overlap (`overlapping_search`).
-/

namespace SymbolOutline

open Rose Forest

namespace Forest

variable {α : Type}

/-! ## Post-order -/

/-- An address comes before another one in post-order: what is below an entry before the entry, and one
branch before the next. -/
inductive PostLt : List Nat → List Nat → Prop
  | under (n : Nat) (a : List Nat) : PostLt (n :: a) []
  | beside {m n : Nat} (a b : List Nat) : m < n → PostLt (m :: a) (n :: b)
  | within (n : Nat) {a b : List Nat} : PostLt a b → PostLt (n :: a) (n :: b)

theorem PostLt.asymm {a b : List Nat} (h : PostLt a b) : ¬ PostLt b a := by
  induction h with
  | under n a => nofun
  | beside a b hmn =>
    intro h
    cases h with
    | beside _ _ hnm => exact Nat.lt_asymm hmn hnm
    | within => exact Nat.lt_irrefl _ hmn
  | within n _ ih =>
    intro h
    cases h with
    | beside _ _ hnn => exact Nat.lt_irrefl _ hnn
    | within _ h => exact ih h

theorem PostLt.shift {a b : List Nat} (h : PostLt a b) (hb : b ≠ []) :
    PostLt (Forest.shift a) (Forest.shift b) := by
  cases h with
  | under => exact absurd rfl hb
  | beside a b hmn => exact .beside a b (Nat.succ_lt_succ hmn)
  | within n h => exact .within (n + 1) h

theorem postLt_root {a : List Nat} (ha : a ≠ []) : PostLt (0 :: a) [0] := by
  obtain ⟨n, a, rfl⟩ := List.exists_cons_of_ne_nil ha
  exact .within 0 (.under n a)

theorem zero_postLt_shift {a b : List Nat} (hb : b ≠ []) : PostLt (0 :: a) (Forest.shift b) := by
  obtain ⟨n, b, rfl⟩ := List.exists_cons_of_ne_nil hb
  exact .beside a b (Nat.succ_pos n)

/-! ## Values in post-order -/

/-- The addresses of a forest for which a predicate holds, in post-order, and the values there. -/
structure ListedAt (ts : Forest α) (A : List Nat → Prop) (as : List (List Nat)) (xs : List α) :
    Prop where
  postorder : as.Pairwise PostLt
  mem : ∀ a, a ∈ as ↔ A a
  values : xs.map some = as.map (valueAt? ts)

/-- The values at those addresses of a forest for which a predicate holds, in post-order. -/
def Listed (ts : Forest α) (A : List Nat → Prop) (xs : List α) : Prop := ∃ as, ListedAt ts A as xs

variable {ts : Forest α} {A B C : List Nat → Prop} {xs ys : List α}

theorem ListedAt.ne_nil {as : List (List Nat)} (h : ListedAt ts A as xs) : ∀ a ∈ as, a ≠ [] := by
  rintro a ha rfl
  have hnone : none ∈ xs.map some := h.values ▸ List.mem_map.2 ⟨[], ha, rfl⟩
  obtain ⟨x, -, hx⟩ := List.mem_map.1 hnone
  cases hx

theorem mem_iff_of_values {as : List (List Nat)} {x : α} (h : xs.map some = as.map (valueAt? ts)) :
    x ∈ xs ↔ ∃ a ∈ as, valueAt? ts a = some x := by
  rw [← List.mem_map, ← h, List.mem_map_of_injective (Option.some_injective α)]

/-- No address comes before itself, so none comes twice. -/
theorem ListedAt.nodup {as : List (List Nat)} (h : ListedAt ts A as xs) : as.Nodup :=
  h.postorder.imp fun hab => by
    rintro rfl
    exact hab.asymm hab

theorem ListedAt.congr {as : List (List Nat)} (h : ListedAt ts A as xs) (hAB : ∀ a, A a ↔ B a) :
    ListedAt ts B as xs :=
  ⟨h.postorder, fun a => (h.mem a).trans (hAB a), h.values⟩

theorem listed_nil (ts : Forest α) (h : ∀ a, ¬ A a) : Listed ts A [] :=
  ⟨[], .nil, fun a => iff_of_false List.not_mem_nil (h a), rfl⟩

/-- What is listed if something holds, and nothing else. -/
theorem Listed.guard (h : Listed ts A xs) (P : Prop) [Decidable P] :
    Listed ts (fun a => P ∧ A a) (if P then xs else []) := by
  by_cases hP : P
  · simpa only [hP, true_and, if_true] using h
  · rw [if_neg hP]
    exact listed_nil ts fun a ha => hP ha.1

/-- Addresses below a tree, its own if it is listed, and addresses beside it. -/
theorem pairwise_branches {bs rs ds : List (List Nat)} (hbs : bs.Pairwise PostLt)
    (hds : ds.Pairwise PostLt) (hb : ∀ b ∈ bs, b ≠ []) (hd : ∀ d ∈ ds, d ≠ [])
    (hrs : rs = [[0]] ∨ rs = []) : (bs.map (0 :: ·) ++ rs ++ ds.map shift).Pairwise PostLt := by
  have hroot : ∀ r ∈ rs, r = [0] := by
    rcases hrs with rfl | rfl <;> simp
  have hbelow : (bs.map (0 :: ·) ++ rs).Pairwise PostLt := by
    refine List.pairwise_append.2 ⟨List.pairwise_map.2 (hbs.imp fun h => .within 0 h), ?_, ?_⟩
    · rcases hrs with rfl | rfl
      · exact List.pairwise_singleton ..
      · exact .nil
    · intro a ha r hr
      obtain ⟨b, hmem, rfl⟩ := List.mem_map.1 ha
      exact hroot r hr ▸ postLt_root (hb b hmem)
  have hzero : ∀ a ∈ bs.map (0 :: ·) ++ rs, ∃ b, a = 0 :: b := by
    intro a ha
    rcases List.mem_append.1 ha with ha | ha
    · obtain ⟨b, -, rfl⟩ := List.mem_map.1 ha
      exact ⟨b, rfl⟩
    · exact ⟨[], hroot a ha⟩
  refine List.pairwise_append.2 ⟨hbelow, ?_, ?_⟩
  · exact List.pairwise_map.2 (hds.imp_of_mem fun _ hmem h => h.shift (hd _ hmem))
  · intro a ha c hc
    obtain ⟨b, rfl⟩ := hzero a ha
    obtain ⟨d, hmem, rfl⟩ := List.mem_map.1 hc
    exact zero_postLt_shift (hd d hmem)

/-- What is listed below the first value of a forest, then that value or not, then what is listed beside
it. -/
theorem Listed.cons {x : α} {cs ss : Forest α} {P : Prop} [Decidable P] (hbelow : Listed cs B xs)
    (hbeside : Listed ss C ys) (hnil : ¬ A []) (hroot : A [0] ↔ P)
    (hzero : ∀ a, a ≠ [] → (A (0 :: a) ↔ B a)) (hshift : ∀ a, A (shift a) ↔ C a) :
    Listed (node x cs :: ss) A (xs ++ (if P then [x] else []) ++ ys) := by
  obtain ⟨bs, hb⟩ := hbelow
  obtain ⟨ds, hd⟩ := hbeside
  obtain ⟨rs, hrs, hmem, hvalues⟩ : ∃ rs : List (List Nat), (rs = [[0]] ∨ rs = []) ∧
      (∀ a, a ∈ rs ↔ a = [0] ∧ A [0]) ∧
      (if P then [x] else []).map some = rs.map (valueAt? (node x cs :: ss)) := by
    by_cases hP : P
    · exact ⟨[[0]], .inl rfl, by simp [hroot.2 hP], by rw [if_pos hP]; rfl⟩
    · exact ⟨[], .inr rfl, by simp [hroot, hP], by rw [if_neg hP]; rfl⟩
  refine ⟨bs.map (0 :: ·) ++ rs ++ ds.map shift,
    pairwise_branches hb.postorder hd.postorder hb.ne_nil hd.ne_nil hrs, fun a => ?_, ?_⟩
  · rw [List.mem_append, List.mem_append, List.mem_map, List.mem_map, hmem]
    constructor
    · rintro ((⟨b, hbmem, rfl⟩ | ⟨rfl, hA⟩) | ⟨d, hdmem, rfl⟩)
      · exact (hzero b (hb.ne_nil b hbmem)).2 ((hb.mem b).1 hbmem)
      · exact hA
      · exact (hshift d).2 ((hd.mem d).1 hdmem)
    · intro h
      match a, h with
      | [], h => exact absurd h hnil
      | [0], h => exact .inl (.inr ⟨rfl, h⟩)
      | 0 :: n :: a, h =>
        exact .inl (.inl ⟨n :: a, (hb.mem _).2 ((hzero _ (List.cons_ne_nil n a)).1 h), rfl⟩)
      | (n + 1) :: a, h => exact .inr ⟨n :: a, (hd.mem _).2 ((hshift (n :: a)).1 h), rfl⟩
  · have hbs : bs.map (valueAt? (node x cs :: ss) ∘ (0 :: ·)) = bs.map (valueAt? cs) :=
      List.map_congr_left fun b hbmem => valueAt?_zero (hb.ne_nil b hbmem) x cs ss
    have hds : ds.map (valueAt? (node x cs :: ss) ∘ shift) = ds.map (valueAt? ss) :=
      List.map_congr_left fun d _ => valueAt?_shift (node x cs) ss d
    simp only [List.map_append, List.map_map, hbs, hds, hb.values, hd.values, hvalues]

end Forest

namespace Outline

variable {q : Lines} {found : Bool} {i : Item} {cs ss ts : Forest Item} {o : Outline} {a b : List Nat}

/-! ## What overlaps the lines -/

theorem overlapping_cons (q : Lines) (found : Bool) (i : Item) (cs ss : Forest Item) :
    ∃ found', (visitAll q found (node i cs :: ss)).1.overlapping =
      (if q.Overlaps i then (visitAll q false cs).1.overlapping else []) ++
        (if q.Overlaps i then [i] else []) ++ (visitAll q found' ss).1.overlapping := by
  refine ⟨(visit q found (node i cs)).2, ?_⟩
  rw [visitAll, visit]
  by_cases ho : q.Overlaps i <;> simp [ho, Findings.and, Findings.none]

/-- What a query lists as overlapping its lines: the entries that do and all above which do. -/
theorem listed_overlapping (q : Lines) (found : Bool) (ts : Forest Item) :
    Listed ts (Visits q ts q.Overlaps) (visitAll q found ts).1.overlapping := by
  induction ts using induct_forest generalizing found with
  | nil => exact listed_nil [] fun a => not_nil_visits
  | cons i cs ss ihc ih =>
    obtain ⟨found', hcons⟩ := overlapping_cons q found i cs ss
    rw [hcons]
    exact ((ihc false).guard (q.Overlaps i)).cons (ih found') not_visits_nil visits_top
      (fun a ha => visits_below ha) fun a => visits_shift

/-- The lines of every entry are among those of the one right above it. -/
def LinesInside (o : Outline) : Prop :=
  ∀ a n, ∀ i ∈ valueAt? o a, ∀ j ∈ valueAt? o (a ++ [n]), i.range.CoversLines j.range

theorem AllInside.linesInside (h : AllInside o) : LinesInside o := fun a n i hi j hj =>
  have hcovers := h a n i hi j hj
  ⟨Position.line_le hcovers.1, Position.line_le hcovers.2⟩

/-- Where entries keep to the lines of those above them, these overlap what an entry overlaps. -/
theorem LinesInside.visits_iff (h : LinesInside o) :
    Visits q o q.Overlaps a ↔ ∃ i ∈ valueAt? o a, q.Overlaps i := by
  refine ⟨And.left, fun hover => ⟨hover, fun b hb hne => ?_⟩⟩
  obtain ⟨c, rfl⟩ := hb
  have hc : c ≠ [] := fun hc => hne (by rw [hc, List.append_nil])
  clear hne hc
  induction c using List.reverseRecOn with
  | nil =>
    intro i hi
    obtain ⟨j, hj, ho⟩ := hover
    rw [List.append_nil] at hj
    exact Option.some.inj (hj.symm.trans hi) ▸ ho
  | append_singleton c n ih =>
    intro i hi
    obtain ⟨j, hj, ho⟩ := hover
    rw [← List.append_assoc] at hj
    have hb := ne_nil_of_mem_addresses (mem_addresses.2 ⟨i, hi⟩)
    obtain ⟨k, hk⟩ := mem_addresses.1 (mem_addresses_above (mem_addresses.2 ⟨j, hj⟩)
      (List.prefix_append ..) (List.append_ne_nil_of_left_ne_nil hb c))
    have hkj := h _ n k hk j hj
    exact ih ⟨k, hk, Nat.le_trans hkj.1 ho.1, Nat.le_trans ho.2 hkj.2⟩ i hi

/-! ## What is in range -/

/-- What is found in range overlaps the lines, and so does all above it. -/
theorem visits_overlaps_of_mem_hits {visible : Span} (h : a ∈ hits (linesOf visible) o)
    (hb : b <+: a) (hne : b ≠ []) : Visits (linesOf visible) o (linesOf visible).Overlaps b := by
  have hlines := visible.firstLine_le_lastLine
  obtain ⟨⟨i, hi, hmatch⟩, habove⟩ := matches_of_mem_hits h
  have ho : (linesOf visible).Overlaps i := by
    have hi := i.range.firstLine_le_lastLine
    rcases hmatch with ⟨hfirst, hlast⟩ | ⟨hfirst, hlast⟩
    · exact ⟨hlast, Nat.le_trans hfirst hi⟩
    · exact ⟨Nat.le_trans hfirst hlines, Nat.le_trans hlines hlast⟩
  have hover : ∀ c, c <+: a → ∀ j ∈ valueAt? o c, (linesOf visible).Overlaps j := by
    intro c hc j hj
    by_cases hca : c = a
    · obtain rfl := Option.some.inj ((hca ▸ hj).symm.trans hi)
      exact ho
    · exact habove c hc hca j hj
  obtain ⟨j, hj⟩ := mem_addresses.1 (mem_addresses_above (mem_addresses.2 ⟨i, hi⟩) hb hne)
  exact ⟨⟨j, hj, hover b hb j hj⟩, fun c hc _ => hover c (hc.trans hb)⟩

/-- What a query lists as overlapping. It is what overlaps the lines, as all above it does, in post-order
and none twice. Where no entry leaves the lines of the one above it, it is all that overlaps them. What is
in range is among it, with all above. -/
theorem overlapping_search (visible : Span) (o : Outline) :
    let q := linesOf visible
    ∃ as, ListedAt o (Visits q o q.Overlaps) as (search q o).overlapping ∧ as.Nodup ∧
      (LinesInside o →
        ListedAt o (fun a => ∃ i ∈ valueAt? o a, q.Overlaps i) as (search q o).overlapping) ∧
      (search q o).inRange.map some = (hits q o).map (valueAt? o) ∧
      ∀ a ∈ hits q o, ∀ b, b <+: a → b ≠ [] → b ∈ as := by
  intro q
  obtain ⟨as, has⟩ := listed_overlapping q false o
  refine ⟨as, has, has.nodup, fun hinside => has.congr fun _ => hinside.visits_iff,
    (readOff q o false).1, fun a ha b hb hne => ?_⟩
  exact (has.mem b).2 (visits_overlaps_of_mem_hits ha hb hne)

/-- Functions one in the other, and a query from line 4 to 11: all overlap it but the one on line 2. -/
theorem overlapping_search_flat :
    let symbol (name : String) (first last : Nat) : Symbol :=
      ⟨⟨.function, name⟩, none, .ofLines first last, .ofLines first first⟩
    let symbols := [symbol "a" 0 9, symbol "b" 2 2, symbol "c" 3 5, symbol "d" 4 4, symbol "e" 11 12]
    let o := ofSymbols [.tag] (flat symbols)
    let q := linesOf (.ofLines 4 11)
    LinesInside o ∧ (search q o).overlapping.map (·.key.name) = ["d", "c", "a", "e"] ∧
      ∃ as, ListedAt o (fun a => ∃ i ∈ valueAt? o a, q.Overlaps i) as (search q o).overlapping := by
  intro symbol symbols o q
  have hkinds : ∀ s ∈ symbols, s.unmask.1 ∉ [Kind.tag] := by decide
  obtain ⟨-, -, hinside⟩ :=
    exists_seats fun s hs (h : IsHidden [.tag] s) => hkinds s hs (isHidden_iff.1 h)
  have hnames : (search q o).overlapping.map (·.key.name) = ["d", "c", "a", "e"] := by
    subst o symbols symbol q
    rw [ofSymbols_eq_inserted]
    decide +kernel
  obtain ⟨as, -, -, hlisted, -⟩ := overlapping_search (.ofLines 4 11) o
  exact ⟨hinside.linesInside, hnames, as, hlisted hinside.linesInside⟩

/-- A child that leaves its parent's lines is not visited where only the child overlaps the query. -/
example :
    let item (name : String) (range : Span) (children : Forest Item) : Rose Item :=
      node (.fresh ⟨.function, name⟩ "" range range) children
    let o := ofForest [item "a" (.ofLines 0 2) [item "b" (.ofLines 1 9) []]]
    search (linesOf (.ofLines 5 6)) o =
      ⟨[], [], (o.items.take 1).map fun i => (5, i)⟩ := by
  decide +kernel

end Outline

end SymbolOutline
