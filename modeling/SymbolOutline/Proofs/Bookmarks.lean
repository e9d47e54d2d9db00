import Mathlib.Data.List.Infix
import SymbolOutline.Bookmark
import SymbolOutline.Proofs.Carries

/-
The bookmarks of an outline, entry by entry (`hoisted_bookmarks`). They are its regions and tags in the
order in which they stand, and one of them is above another one just if it was so before. Taking bookmarks
of bookmarks takes all of them.

An entry that is no bookmark makes room for the bookmarks below it, which come to stand among its siblings.
So the comparison is of forests that begin at any number among siblings and below any address
(`aligned_bookmarks`).
-/

namespace SymbolOutline

open Rose

namespace Forest

variable {α : Type}

/-! ## Values in pre-order, with their addresses -/

mutual
/-- A tree's address and the addresses below it, each before those below it, with the values there. -/
def sitesOf (here : List Nat) : Rose α → List (List Nat × α)
  | .node a ts => (here, a) :: sitesIn here 0 ts
/-- The addresses of trees below an address, which are numbered from `n` on, with the values there. -/
def sitesIn (above : List Nat) (n : Nat) : Forest α → List (List Nat × α)
  | [] => []
  | t :: ts => sitesOf (above ++ [n]) t ++ sitesIn above (n + 1) ts
end

/-- The addresses of a forest in pre-order, with the values there. -/
def sites (ts : Forest α) : List (List Nat × α) := sitesIn [] 0 ts

theorem sitesIn_cons (above : List Nat) (n : Nat) (x : α) (cs ts : Forest α) :
    sitesIn above n (node x cs :: ts) =
      (above ++ [n], x) :: (sitesIn (above ++ [n]) 0 cs ++ sitesIn above (n + 1) ts) := rfl

theorem sitesIn_append (above : List Nat) (n : Nat) (ss ts : Forest α) :
    sitesIn above n (ss ++ ts) = sitesIn above n ss ++ sitesIn above (n + ss.length) ts := by
  induction ss generalizing n with
  | nil => rfl
  | cons s ss ih =>
    rw [List.cons_append, sitesIn, sitesIn, ih, List.append_assoc, List.length_cons,
      Nat.add_right_comm, Nat.add_assoc n ss.length 1]

/-- The addresses are those that have a value. -/
theorem mem_sitesIn {above : List Nat} {n : Nat} {ts : Forest α} {s : List Nat × α} :
    s ∈ sitesIn above n ts ↔
      ∃ m b, s.1 = above ++ (n + m) :: b ∧ valueAt? ts (m :: b) = some s.2 := by
  induction ts using induct_forest generalizing above n with
  | nil => simp [sitesIn, valueAt?]
  | cons x cs ts ihc ih =>
    rw [sitesIn_cons, List.mem_cons, List.mem_append, ihc, ih]
    constructor
    · rintro (rfl | ⟨m, b, hs, hv⟩ | ⟨m, b, hs, hv⟩)
      · exact ⟨0, [], rfl, rfl⟩
      · exact ⟨0, m :: b, by rw [hs]; simp, hv⟩
      · exact ⟨m + 1, b, by rw [hs, Nat.add_right_comm, Nat.add_assoc], hv⟩
    · rintro ⟨_ | m, b, hs, hv⟩
      · cases b with
        | nil => exact .inl (Prod.ext hs (Option.some.inj hv).symm)
        | cons m b => exact .inr (.inl ⟨m, b, by rw [hs]; simp, hv⟩)
      · exact .inr (.inr ⟨m, b, by rw [hs, Nat.add_right_comm, Nat.add_assoc], hv⟩)

theorem mem_sites {ts : Forest α} {a : List Nat} {x : α} :
    (a, x) ∈ sites ts ↔ valueAt? ts a = some x := by
  rw [sites, mem_sitesIn]
  constructor
  · rintro ⟨m, b, ha, hv⟩
    rw [show a = m :: b by simpa using ha]
    exact hv
  · intro hv
    obtain ⟨m, b, rfl⟩ := List.exists_cons_of_ne_nil (ne_nil_of_mem_addresses (mem_addresses.2 ⟨x, hv⟩))
    exact ⟨m, b, by simp, hv⟩

/-! ## Addresses that are compared -/

section

variable {above a b : List Nat} {m n : Nat}

/-- Neither of two addresses is above the other. -/
def Apart (a b : List Nat) : Prop := ¬ a <+: b ∧ ¬ b <+: a

theorem apart_of_ne (h : m ≠ n) : Apart (above ++ m :: a) (above ++ n :: b) := by
  constructor
  · intro hab
    exact h (List.cons_prefix_cons.1 ((List.prefix_append_right_inj above).1 hab)).1
  · intro hba
    exact h (List.cons_prefix_cons.1 ((List.prefix_append_right_inj above).1 hba)).1.symm

/-- What is right below an address is numbered by the siblings there are. -/
theorem exists_of_mem_sitesIn {ts : Forest α} {s : List Nat × α} (hs : s ∈ sitesIn above n ts) :
    ∃ m b, n ≤ m ∧ m < n + ts.length ∧ s.1 = above ++ m :: b := by
  obtain ⟨m, b, hs, hv⟩ := mem_sitesIn.1 hs
  obtain ⟨t, ht, -⟩ := Option.bind_eq_some_iff.1 hv
  have hlt := (List.getElem?_eq_some_iff.1 ht).1
  exact ⟨n + m, b, by omega, by omega, hs⟩

end

theorem exists_of_mem_below {above : List Nat} {n k : Nat} {ts : Forest α} {s : List Nat × α}
    (hs : s ∈ sitesIn (above ++ [n]) k ts) : ∃ m b, s.1 = above ++ n :: m :: b := by
  obtain ⟨m, b, -, -, hs⟩ := exists_of_mem_sitesIn hs
  exact ⟨m, b, by rw [hs]; simp⟩

/-- What is below an address is not above it. -/
theorem prefix_below (above : List Nat) (n m : Nat) (b : List Nat) :
    above ++ [n] <+: above ++ n :: m :: b ∧ ¬ above ++ n :: m :: b <+: above ++ [n] := by
  constructor
  · exact ⟨m :: b, by simp⟩
  · intro h
    have := h.length_le
    simp at this

/-- Values at addresses, and the same values at other addresses, which are above each other just if the
first ones are. -/
structure Aligned (ss ts : List (List Nat × α)) : Prop where
  values : ts.map Prod.snd = ss.map Prod.snd
  above : ∀ p ∈ ss.zip ts, ∀ q ∈ ss.zip ts, p.2.1 <+: q.2.1 ↔ p.1.1 <+: q.1.1

namespace Aligned

variable {ss ts ss' ts' : List (List Nat × α)} {a b : List Nat} {x : α}

theorem length_eq (h : Aligned ss ts) : ss.length = ts.length := by
  have := congrArg List.length h.values
  rwa [List.length_map, List.length_map, eq_comm] at this

theorem nil : Aligned ([] : List (List Nat × α)) [] := ⟨rfl, nofun⟩

/-- One more value in front and above all others. -/
theorem cons (h : Aligned ss ts) (ha : ∀ s ∈ ss, a <+: s.1 ∧ ¬ s.1 <+: a)
    (hb : ∀ t ∈ ts, b <+: t.1 ∧ ¬ t.1 <+: b) : Aligned ((a, x) :: ss) ((b, x) :: ts) where
  values := by rw [List.map_cons, List.map_cons, h.values]
  above := by
    rw [List.zip_cons_cons]
    intro p hp q hq
    rcases List.mem_cons.1 hp with rfl | hp <;> rcases List.mem_cons.1 hq with rfl | hq
    · exact iff_of_true (List.prefix_refl b) (List.prefix_refl a)
    · exact iff_of_true (hb _ (List.of_mem_zip hq).2).1 (ha _ (List.of_mem_zip hq).1).1
    · exact iff_of_false (hb _ (List.of_mem_zip hp).2).2 (ha _ (List.of_mem_zip hp).1).2
    · exact h.above p hp q hq

/-- Other values behind, of which none is above or below. -/
theorem append (h : Aligned ss ts) (h' : Aligned ss' ts') (hs : ∀ s ∈ ss, ∀ s' ∈ ss', Apart s.1 s'.1)
    (ht : ∀ t ∈ ts, ∀ t' ∈ ts', Apart t.1 t'.1) : Aligned (ss ++ ss') (ts ++ ts') where
  values := by rw [List.map_append, List.map_append, h.values, h'.values]
  above := by
    rw [List.zip_append h.length_eq]
    intro p hp q hq
    rcases List.mem_append.1 hp with hp | hp <;> rcases List.mem_append.1 hq with hq | hq
    · exact h.above p hp q hq
    · exact iff_of_false (ht _ (List.of_mem_zip hp).2 _ (List.of_mem_zip hq).2).1
        (hs _ (List.of_mem_zip hp).1 _ (List.of_mem_zip hq).1).1
    · exact iff_of_false (ht _ (List.of_mem_zip hq).2 _ (List.of_mem_zip hp).2).2
        (hs _ (List.of_mem_zip hq).1 _ (List.of_mem_zip hp).1).2
    · exact h'.above p hp q hq

theorem exists_right (h : Aligned ss ts) {s : List Nat × α} (hs : s ∈ ss) : ∃ t, (s, t) ∈ ss.zip ts := by
  rw [← List.map_fst_zip h.length_eq.le] at hs
  obtain ⟨⟨_, t⟩, hst, rfl⟩ := List.mem_map.1 hs
  exact ⟨t, hst⟩

theorem exists_left (h : Aligned ss ts) {t : List Nat × α} (ht : t ∈ ts) : ∃ s, (s, t) ∈ ss.zip ts := by
  rw [← List.map_snd_zip h.length_eq.ge] at ht
  obtain ⟨⟨s, _⟩, hst, rfl⟩ := List.mem_map.1 ht
  exact ⟨s, hst⟩

/-- A value of a forest is a root just if none of the first addresses is above its own. -/
theorem root_iff {us : Forest α} (h : Aligned ss (sites us)) {p : (List Nat × α) × List Nat × α}
    (hp : p ∈ ss.zip (sites us)) :
    (∃ n, p.2.1 = [n]) ↔ ∀ s ∈ ss, s.1 <+: p.1.1 → s.1 = p.1.1 := by
  have hvalue : ∀ t ∈ sites us, t.1 ∈ addresses us := fun t ht => mem_addresses.2 ⟨t.2, mem_sites.1 ht⟩
  constructor
  · rintro ⟨n, hn⟩ s hs hsp
    obtain ⟨t, hst⟩ := h.exists_right hs
    have htp := (h.above _ hst p hp).2 hsp
    have hpos := List.length_pos_iff.2 (ne_nil_of_mem_addresses (hvalue t (List.of_mem_zip hst).2))
    have heq : t.1 = p.2.1 := by
      refine htp.eq_of_length_le ?_
      rw [hn, List.length_singleton]
      exact hpos
    have hps := (h.above p hp _ hst).1 (heq ▸ List.prefix_refl _)
    exact hsp.eq_of_length_le hps.length_le
  · intro hno
    have hmem := hvalue p.2 (List.of_mem_zip hp).2
    obtain ⟨n, r, hr⟩ := List.exists_cons_of_ne_nil (ne_nil_of_mem_addresses hmem)
    have htop : [n] <+: p.2.1 := hr ▸ ⟨r, rfl⟩
    -- the root above it comes from an address above that of the value, so from this one
    obtain ⟨x, hx⟩ := mem_addresses.1 (mem_addresses_above hmem htop (List.cons_ne_nil n []))
    obtain ⟨s, hs⟩ := h.exists_left (mem_sites.2 hx)
    have heq := hno s (List.of_mem_zip hs).1 ((h.above _ hs p hp).1 htop)
    have hback := (h.above p hp _ hs).2 (heq ▸ List.prefix_refl _)
    exact ⟨n, hback.eq_of_length_le htop.length_le⟩

end Aligned

end Forest

/-- The entry is a region or a tag. -/
def Item.IsBookmark (i : Item) : Prop := i.key.kind = .region ∨ i.key.kind = .tag

instance (i : Item) : Decidable i.IsBookmark := inferInstanceAs (Decidable (_ ∨ _))

namespace Outline

open Forest

/-! ## Bookmarks -/

theorem bookmarks_cons (i : Item) (cs ts : Forest Item) :
    bookmarks (node i cs :: ts) =
      (if i.IsBookmark then [node i (bookmarks cs)] else bookmarks cs) ++ bookmarks ts := rfl

theorem bookmarks_cons_of_isBookmark {i : Item} (h : i.IsBookmark) (cs ts : Forest Item) :
    bookmarks (node i cs :: ts) = node i (bookmarks cs) :: bookmarks ts := by
  rw [bookmarks_cons, if_pos h]
  rfl

theorem bookmarks_cons_of_not {i : Item} (h : ¬ i.IsBookmark) (cs ts : Forest Item) :
    bookmarks (node i cs :: ts) = bookmarks cs ++ bookmarks ts := by
  rw [bookmarks_cons, if_neg h]

theorem valuesAll_bookmarks (o : Forest Item) :
    valuesAll (bookmarks o) = (valuesAll o).filter fun i => i.IsBookmark := by
  induction o using induct_forest with
  | nil => rfl
  | cons i cs ts ihc ih =>
    rw [valuesAll_cons]
    by_cases h : i.IsBookmark
    · rw [bookmarks_cons_of_isBookmark h, valuesAll_cons, List.filter_cons_of_pos (by simpa using h),
        List.filter_append, ihc, ih]
    · rw [bookmarks_cons_of_not h, valuesAll_append, List.filter_cons_of_neg (by simpa using h),
        List.filter_append, ihc, ih]

/-- Where all entries are bookmarks, all are kept. -/
theorem bookmarks_eq_self {o : Forest Item} (h : ∀ i ∈ valuesAll o, i.IsBookmark) : bookmarks o = o := by
  induction o using induct_forest with
  | nil => rfl
  | cons i cs ts ihc ih =>
    simp only [valuesAll_cons, List.mem_cons, List.mem_append] at h
    rw [bookmarks_cons_of_isBookmark (h i (.inl rfl)), ihc fun j hj => h j (.inr (.inl hj)),
      ih fun j hj => h j (.inr (.inr hj))]

theorem bookmarks_bookmarks (o : Forest Item) : bookmarks (bookmarks o) = bookmarks o := by
  refine bookmarks_eq_self fun i hi => ?_
  rw [valuesAll_bookmarks] at hi
  simpa using (List.mem_filter.1 hi).2

/-- The sites of bookmarks among others. -/
def kept (sites : List (List Nat × Item)) : List (List Nat × Item) :=
  sites.filter fun s => s.2.IsBookmark

theorem kept_append (ss ts : List (List Nat × Item)) : kept (ss ++ ts) = kept ss ++ kept ts :=
  List.filter_append ..

theorem mem_of_mem_kept {sites : List (List Nat × Item)} {s : List Nat × Item} (hs : s ∈ kept sites) :
    s ∈ sites := (List.mem_filter.1 hs).1

/-- Bookmarks come to stand to each other as they did, wherever the forests are. -/
theorem aligned_bookmarks (o : Forest Item) (above above' : List Nat) (n n' : Nat) :
    Aligned (kept (sitesIn above n o)) (sitesIn above' n' (bookmarks o)) := by
  induction o using induct_forest generalizing above above' n n' with
  | nil => exact .nil
  | cons i cs ts ihc ih =>
    have hbeside : ∀ s ∈ kept (sitesIn above (n + 1) ts), ∃ m b, n < m ∧ s.1 = above ++ m :: b := by
      intro s hs
      obtain ⟨m, b, hm, -, hs⟩ := exists_of_mem_sitesIn (mem_of_mem_kept hs)
      exact ⟨m, b, hm, hs⟩
    have hapart : ∀ s ∈ kept (sitesIn (above ++ [n]) 0 cs), ∀ s' ∈ kept (sitesIn above (n + 1) ts),
        Apart s.1 s'.1 := by
      intro s hs s' hs'
      obtain ⟨m, b, hs⟩ := exists_of_mem_below (mem_of_mem_kept hs)
      obtain ⟨m', b', hlt, hs'⟩ := hbeside s' hs'
      rw [hs, hs']
      exact apart_of_ne (Nat.ne_of_lt hlt)
    rw [sitesIn_cons]
    by_cases h : i.IsBookmark
    · -- the entry stays above what is kept of those below it
      have hkeep : kept ((above ++ [n], i) :: (sitesIn (above ++ [n]) 0 cs ++ sitesIn above (n + 1) ts)) =
          (above ++ [n], i) :: kept (sitesIn (above ++ [n]) 0 cs) ++ kept (sitesIn above (n + 1) ts) := by
        rw [List.cons_append, ← kept_append]
        exact List.filter_cons_of_pos (by simpa using h)
      rw [hkeep, bookmarks_cons_of_isBookmark h, sitesIn_cons, ← List.cons_append]
      refine ((ihc _ _ _ _).cons ?_ ?_).append (ih _ _ _ _) ?_ ?_
      · intro s hs
        obtain ⟨m, b, hs⟩ := exists_of_mem_below (mem_of_mem_kept hs)
        rw [hs]
        exact prefix_below above n m b
      · intro t ht
        obtain ⟨m, b, ht⟩ := exists_of_mem_below ht
        rw [ht]
        exact prefix_below above' n' m b
      · refine List.forall_mem_cons.2 ⟨fun s' hs' => ?_, hapart⟩
        obtain ⟨m', b', hlt, hs'⟩ := hbeside s' hs'
        rw [hs']
        exact apart_of_ne (Nat.ne_of_lt hlt)
      · intro t ht t' ht'
        have htop : ∃ b, t.1 = above' ++ n' :: b := by
          rcases List.mem_cons.1 ht with rfl | ht
          · exact ⟨[], rfl⟩
          · obtain ⟨m, b, ht⟩ := exists_of_mem_below ht
            exact ⟨m :: b, ht⟩
        obtain ⟨b, ht⟩ := htop
        obtain ⟨m', b', hle, -, ht'⟩ := exists_of_mem_sitesIn ht'
        rw [ht, ht']
        exact apart_of_ne (by omega)
    · -- what is kept of those below it comes to stand among its siblings
      have hdrop : kept ((above ++ [n], i) :: (sitesIn (above ++ [n]) 0 cs ++ sitesIn above (n + 1) ts)) =
          kept (sitesIn (above ++ [n]) 0 cs) ++ kept (sitesIn above (n + 1) ts) := by
        rw [← kept_append]
        exact List.filter_cons_of_neg (by simpa using h)
      rw [hdrop, bookmarks_cons_of_not h, sitesIn_append]
      refine (ihc _ _ _ _).append (ih _ _ _ _) hapart ?_
      intro t ht t' ht'
      obtain ⟨m, b, -, hlt, ht⟩ := exists_of_mem_sitesIn ht
      obtain ⟨m', b', hle, -, ht'⟩ := exists_of_mem_sitesIn ht'
      rw [ht, ht']
      exact apart_of_ne (by omega)

/-- Bookmarks of an outline are its regions and tags in their order. One of them is above another one just
if it was so before, it is a root just if no other one was above it, and all of them are bookmarks again. -/
theorem hoisted_bookmarks (o : Forest Item) :
    let before := (sites o).filter fun s => s.2.IsBookmark
    let after := sites (bookmarks o)
    valuesAll (bookmarks o) = (valuesAll o).filter (fun i => i.IsBookmark) ∧
      after.map Prod.snd = before.map Prod.snd ∧
      (∀ p ∈ before.zip after, ∀ q ∈ before.zip after, p.2.1 <+: q.2.1 ↔ p.1.1 <+: q.1.1) ∧
      (∀ p ∈ before.zip after, (∃ n, p.2.1 = [n]) ↔ ∀ s ∈ before, s.1 <+: p.1.1 → s.1 = p.1.1) ∧
      bookmarks (bookmarks o) = bookmarks o := by
  intro before after
  have haligned : Aligned before after := aligned_bookmarks o [] [] 0 0
  exact ⟨valuesAll_bookmarks o, haligned.values, haligned.above, fun p hp => haligned.root_iff hp,
    bookmarks_bookmarks o⟩

/-- Bookmarks below other entries, which are below bookmarks, which are below another entry. -/
theorem hoisted_bookmarks_alternating :
    let entry (kind : Kind) (name : String) (below : Forest Item) : Rose Item :=
      node (Item.fresh ⟨kind, name⟩ "" (.ofLines 0 0) (.ofLines 0 0)) below
    let o := [
      entry .classType "A" [
        entry .region "r" [
          entry .method "m" [entry .tag "s" [], entry .function "f" [entry .tag "t" []]],
          entry .region "q" []],
        entry .tag "u" []],
      entry .tag "v" []]
    let before := (sites o).filter fun s => s.2.IsBookmark
    let after := sites (bookmarks o)
    before.map (fun s => (s.1, s.2.key.name)) = [([0, 0], "r"), ([0, 0, 0, 0], "s"),
        ([0, 0, 0, 1, 0], "t"), ([0, 0, 1], "q"), ([0, 1], "u"), ([1], "v")] ∧
      after.map (fun s => (s.1, s.2.key.name)) = [([0], "r"), ([0, 0], "s"), ([0, 1], "t"),
        ([0, 2], "q"), ([1], "u"), ([2], "v")] ∧
      ∃ p ∈ before.zip after, ∃ q ∈ before.zip after, p.1.1 = [0, 0] ∧ q.1.1 = [0, 0, 0, 1, 0] ∧
        (p.2.1 <+: q.2.1 ↔ p.1.1 <+: q.1.1) ∧
        ((∃ n, p.2.1 = [n]) ↔ ∀ s ∈ before, s.1 <+: p.1.1 → s.1 = p.1.1) ∧
        bookmarks (bookmarks o) = bookmarks o := by
  intro entry o before after
  obtain ⟨-, -, habove, hroot, hagain⟩ := hoisted_bookmarks o
  obtain ⟨p, hp, hr⟩ : ∃ p, (before.zip after)[0]? = some p ∧ p.1.1 = [0, 0] := ⟨_, rfl, rfl⟩
  obtain ⟨q, hq, ht⟩ : ∃ q, (before.zip after)[2]? = some q ∧ q.1.1 = [0, 0, 0, 1, 0] := ⟨_, rfl, rfl⟩
  have hp := List.mem_of_getElem? hp
  have hq := List.mem_of_getElem? hq
  exact ⟨by decide, by decide, p, hp, q, hq, hr, ht, habove p hp q hq, hroot p hp, hagain⟩

end Outline

end SymbolOutline
