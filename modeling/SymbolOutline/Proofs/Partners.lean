import Mathlib.Data.List.Induction
import Mathlib.Data.List.Nodup
import Mathlib.Data.List.Pairwise
import SymbolOutline.Proofs.Edits
import SymbolOutline.Proofs.Placement

/-
Who is paired with whom (`settles_ofList`). A closer takes the latest opener in front of it that no closer
between the two has taken, and that has the closer's name if the closer has one; where there is none the
closer is a problem. Marks may be alike, so they are told apart by their numbers, and every one of them
comes to be in one place.

A closer with a name may take an opener out of the middle of those that wait. Those that are left
are still in order, and that is all the next closer needs (`settles_push`).
-/

namespace SymbolOutline

namespace Pairing

open Text

/-- A mark and how many marks came before it. -/
abbrev Arrival := Nat × Mark

/-- Arrivals one after the other. -/
def InOrder (xs : List Arrival) : Prop := xs.Pairwise fun x y => x.1 < y.1

/-- What becomes of the marks of a document. -/
structure Fates where
  /-- Openers with their closers. -/
  pairs : List (Arrival × Arrival)
  tags : List Arrival
  unmatched : List Arrival
  unclosed : List Arrival

namespace Fates

/-- The places where a mark may come to be, one after the other. -/
def all (f : Fates) : List Arrival :=
  (f.pairs.flatMap fun p => [p.1, p.2]) ++ (f.tags ++ (f.unmatched ++ f.unclosed))

/-- The marks of a document, with their numbers forgotten. -/
def marks (f : Fates) : Marks where
  regions := f.pairs.map fun p => ⟨p.1.2, p.2.2⟩
  tags := f.tags.map Prod.snd
  problems := f.unmatched.map (fun c => ⟨.unmatchedCloser, c.2⟩) ++
    f.unclosed.map fun o => ⟨.unclosedOpener, o.2⟩

/-- The opener `o` is in front of `c`, no closer in front of `c` is paired with it, and `c` may close it. -/
structure Awaits (f : Fates) (as : List Mark) (o c : Arrival) : Prop where
  mem : o ∈ numbered as
  opener : o.2.marker = .opener
  before : o.1 < c.1
  closes : Closes c.2 o.2
  free : ∀ d, (o, d) ∈ f.pairs → ¬ d.1 < c.1

end Fates

/-- Every mark comes to be in one place. A closer is paired with the latest opener that awaits it, and is
unmatched if none does. Everything is in order, the pairs in that of their closers. -/
structure Settles (as : List Mark) (f : Fates) : Prop where
  once : f.all.Perm (numbered as)
  tag : ∀ t ∈ f.tags, t.2.marker = .tag
  opener : ∀ o ∈ f.unclosed, o.2.marker = .opener
  paired : ∀ o c, (o, c) ∈ f.pairs ↔ c ∈ numbered as ∧ c.2.marker = .closer ∧ f.Awaits as o c ∧
    ∀ o', f.Awaits as o' c → o'.1 ≤ o.1
  unmatched : ∀ c, c ∈ f.unmatched ↔
    c ∈ numbered as ∧ c.2.marker = .closer ∧ ∀ o, ¬ f.Awaits as o c
  pairs_inOrder : InOrder (f.pairs.map Prod.snd)
  tags_inOrder : InOrder f.tags
  unmatched_inOrder : InOrder f.unmatched
  unclosed_inOrder : InOrder f.unclosed

/-! ## One more mark -/

variable {as : List Mark} {a : Mark} {f f' : Fates} {o c : Arrival}

theorem numbered_concat (as : List Mark) (a : Mark) :
    numbered (as ++ [a]) = numbered as ++ [(as.length, a)] := by
  simp [numbered, List.zipIdx_append]

theorem lt_length_of_mem_numbered (h : c ∈ numbered as) : c.1 < as.length :=
  (List.getElem?_eq_some_iff.1 (mem_numbered.1 h)).1

theorem inOrder_numbered (as : List Mark) : InOrder (numbered as) := by
  unfold InOrder numbered
  rw [List.pairwise_iff_getElem]
  intro i j hi hj hij
  simpa using hij

theorem InOrder.nodup {xs : List Arrival} (h : InOrder xs) : xs.Nodup :=
  h.imp fun hlt heq => Nat.ne_of_lt hlt (congrArg Prod.fst heq)

theorem InOrder.concat {xs : List Arrival} (h : InOrder xs) (hxs : ∀ x ∈ xs, x.1 < c.1) :
    InOrder (xs ++ [c]) :=
  List.pairwise_append.2 ⟨h, List.pairwise_singleton .., fun x hx y hy => by
    rw [List.mem_singleton.1 hy]
    exact hxs x hx⟩

theorem Settles.mem (hf : Settles as f) : c ∈ f.all ↔ c ∈ numbered as := hf.once.mem_iff

theorem Settles.lt_length (hf : Settles as f) (hc : c ∈ f.all) : c.1 < as.length :=
  lt_length_of_mem_numbered (hf.mem.1 hc)

theorem Fates.mem_all : c ∈ f.all ↔
    (∃ p ∈ f.pairs, c = p.1 ∨ c = p.2) ∨ c ∈ f.tags ∨ c ∈ f.unmatched ∨ c ∈ f.unclosed := by
  simp [Fates.all, List.mem_append, List.mem_flatMap]

/-- An opener that waits is not in a pair. -/
theorem Settles.not_paired (hf : Settles as f) (ho : o ∈ f.unclosed) (c : Arrival) :
    (o, c) ∉ f.pairs := by
  intro hpair
  have hnodup := hf.once.nodup_iff.2 (inOrder_numbered as).nodup
  have happart := (List.nodup_append'.1 hnodup).2.2
  exact happart (List.mem_flatMap.2 ⟨(o, c), hpair, List.mem_cons_self ..⟩) (by simp [ho])

/-- An opener that is in no pair waits. -/
theorem Settles.mem_unclosed (hf : Settles as f) (hmem : o ∈ numbered as) (ho : o.2.marker = .opener)
    (hfree : ∀ c, (o, c) ∉ f.pairs) : o ∈ f.unclosed := by
  have hne : ∀ m, o.2.marker = m → m = .opener := fun m hm => hm.symm.trans ho
  rcases Fates.mem_all.1 (hf.mem.2 hmem) with ⟨p, hp, rfl | rfl⟩ | htag | hunmatched | hopener
  · exact absurd hp (hfree p.2)
  · cases hne _ ((hf.paired _ _).1 hp).2.1
  · cases hne _ (hf.tag o htag)
  · cases hne _ ((hf.unmatched o).1 hunmatched).2.1
  · exact hopener

/-- Of all the openers that wait, the latest that the closer may close. -/
def Fates.Latest (f : Fates) (a : Mark) (o : Arrival) : Prop :=
  (o ∈ f.unclosed ∧ Closes a o.2) ∧ ∀ o', o' ∈ f.unclosed ∧ Closes a o'.2 → o'.1 ≤ o.1

/-- The fates once the next mark has come: its own is one more, and no mark but an opener that the new one
closes changes places. -/
structure Takes (as : List Mark) (a : Mark) (f f' : Fates) : Prop where
  once : f'.all.Perm (f.all ++ [(as.length, a)])
  tag : ∀ t ∈ f'.tags, t.2.marker = .tag
  opener : ∀ o ∈ f'.unclosed, o.2.marker = .opener
  paired : ∀ o c, (o, c) ∈ f'.pairs ↔
    (o, c) ∈ f.pairs ∨ c = (as.length, a) ∧ a.marker = .closer ∧ f.Latest a o
  unmatched : ∀ c, c ∈ f'.unmatched ↔
    c ∈ f.unmatched ∨ c = (as.length, a) ∧ a.marker = .closer ∧ ∀ o ∈ f.unclosed, ¬ Closes a o.2
  pairs_inOrder : InOrder (f'.pairs.map Prod.snd)
  tags_inOrder : InOrder f'.tags
  unmatched_inOrder : InOrder f'.unmatched
  unclosed_inOrder : InOrder f'.unclosed

/-- What awaits an earlier closer is what awaited it before. -/
theorem Takes.awaits (h : Takes as a f f') (hc : c.1 < as.length) :
    f'.Awaits (as ++ [a]) o c ↔ f.Awaits as o c := by
  constructor
  · rintro ⟨hmem, ho, hlt, hcloses, hfree⟩
    rw [numbered_concat, List.mem_append, List.mem_singleton] at hmem
    refine ⟨hmem.resolve_right ?_, ho, hlt, hcloses, fun d hd => hfree d ((h.paired o d).2 (.inl hd))⟩
    rintro rfl
    exact absurd hlt (Nat.not_lt.2 (Nat.le_of_lt hc))
  · rintro ⟨hmem, ho, hlt, hcloses, hfree⟩
    refine ⟨?_, ho, hlt, hcloses, fun d hd => ?_⟩
    · rw [numbered_concat]
      exact List.mem_append_left _ hmem
    · rcases (h.paired o d).1 hd with hd | ⟨rfl, -⟩
      · exact hfree d hd
      · exact Nat.not_lt.2 (Nat.le_of_lt hc)

/-- What awaits the new closer is what waits, as far as it may close it. -/
theorem Takes.awaits_last (h : Takes as a f f') (hf : Settles as f) :
    f'.Awaits (as ++ [a]) o (as.length, a) ↔ o ∈ f.unclosed ∧ Closes a o.2 := by
  constructor
  · rintro ⟨hmem, ho, hlt, hcloses, hfree⟩
    rw [numbered_concat, List.mem_append, List.mem_singleton] at hmem
    have hold : o ∈ numbered as := hmem.resolve_right fun heq => Nat.ne_of_lt hlt (congrArg Prod.fst heq)
    refine ⟨hf.mem_unclosed hold ho fun d hd => ?_, hcloses⟩
    exact hfree d ((h.paired o d).2 (.inl hd)) (lt_length_of_mem_numbered ((hf.paired o d).1 hd).1)
  · rintro ⟨ho, hcloses⟩
    have hold : o ∈ numbered as := hf.mem.1 (Fates.mem_all.2 (.inr (.inr (.inr ho))))
    refine ⟨?_, hf.opener o ho, lt_length_of_mem_numbered hold, hcloses, fun d hd => ?_⟩
    · rw [numbered_concat]
      exact List.mem_append_left _ hold
    · rcases (h.paired o d).1 hd with hd | ⟨rfl, -⟩
      · exact absurd hd (hf.not_paired ho d)
      · exact Nat.lt_irrefl _

theorem mem_numbered_concat : c ∈ numbered (as ++ [a]) ↔ c ∈ numbered as ∨ c = (as.length, a) := by
  rw [numbered_concat, List.mem_append, List.mem_singleton]

/-- The fates of the marks so far stay settled when the next mark comes. -/
theorem Takes.settles (h : Takes as a f f') (hf : Settles as f) : Settles (as ++ [a]) f' where
  once := by
    rw [numbered_concat]
    exact h.once.trans (hf.once.append_right _)
  tag := h.tag
  opener := h.opener
  paired := by
    intro o c
    rw [h.paired, mem_numbered_concat]
    constructor
    · rintro (hpair | ⟨rfl, hcloser, hlatest⟩)
      · obtain ⟨hmem, hcloser, hawaits, hlatest⟩ := (hf.paired o c).1 hpair
        have hlt := lt_length_of_mem_numbered hmem
        exact ⟨.inl hmem, hcloser, (h.awaits hlt).2 hawaits, fun o' ho' => hlatest o' ((h.awaits hlt).1 ho')⟩
      · exact ⟨.inr rfl, hcloser, (h.awaits_last hf).2 hlatest.1,
          fun o' ho' => hlatest.2 o' ((h.awaits_last hf).1 ho')⟩
    · rintro ⟨hmem | rfl, hcloser, hawaits, hlatest⟩
      · have hlt := lt_length_of_mem_numbered hmem
        exact .inl ((hf.paired o c).2 ⟨hmem, hcloser, (h.awaits hlt).1 hawaits,
          fun o' ho' => hlatest o' ((h.awaits hlt).2 ho')⟩)
      · exact .inr ⟨rfl, hcloser, (h.awaits_last hf).1 hawaits,
          fun o' ho' => hlatest o' ((h.awaits_last hf).2 ho')⟩
  unmatched := by
    intro c
    rw [h.unmatched, mem_numbered_concat]
    constructor
    · rintro (hold | ⟨rfl, hcloser, hnone⟩)
      · obtain ⟨hmem, hcloser, hnone⟩ := (hf.unmatched c).1 hold
        exact ⟨.inl hmem, hcloser, fun o ho => hnone o ((h.awaits (lt_length_of_mem_numbered hmem)).1 ho)⟩
      · exact ⟨.inr rfl, hcloser, fun o ho => hnone o ((h.awaits_last hf).1 ho).1 ((h.awaits_last hf).1 ho).2⟩
    · rintro ⟨hmem | rfl, hcloser, hnone⟩
      · exact .inl ((hf.unmatched c).2 ⟨hmem, hcloser,
          fun o ho => hnone o ((h.awaits (lt_length_of_mem_numbered hmem)).2 ho)⟩)
      · exact .inr ⟨rfl, hcloser, fun o ho hcloses => hnone o ((h.awaits_last hf).2 ⟨ho, hcloses⟩)⟩
  pairs_inOrder := h.pairs_inOrder
  tags_inOrder := h.tags_inOrder
  unmatched_inOrder := h.unmatched_inOrder
  unclosed_inOrder := h.unclosed_inOrder

/-! ## Marks one after the other -/

/-- The state of a pairing in which the marks that have come have these fates. -/
def Fates.pairing (f : Fates) : Pairing where
  pending := (f.unclosed.map Prod.snd).reverse
  regions := f.pairs.map fun p => ⟨p.1.2, p.2.2⟩
  tags := f.tags.map Prod.snd
  unmatched := f.unmatched.map Prod.snd

theorem Fates.finish_pairing (f : Fates) : f.pairing.finish = f.marks := by
  simp [Fates.pairing, Fates.marks, Pairing.finish, Function.comp_def]

theorem settles_nil : Settles [] ⟨[], [], [], []⟩ where
  once := .nil
  tag := fun _ h => by cases h
  opener := fun _ h => by cases h
  paired := fun _ _ => ⟨fun h => (by cases h), fun h => (by cases h.1)⟩
  unmatched := fun _ => ⟨fun h => (by cases h), fun h => (by cases h.1)⟩
  pairs_inOrder := .nil
  tags_inOrder := .nil
  unmatched_inOrder := .nil
  unclosed_inOrder := .nil

namespace Settles

/-- A new mark has a higher number than those of any place. -/
theorem lt_last (hf : Settles as f) {xs : List Arrival} (hxs : ∀ x ∈ xs, x ∈ f.all) :
    ∀ x ∈ xs, x.1 < (as.length, a).1 := fun x hx => hf.lt_length (hxs x hx)

/-- A tag. -/
theorem takes_tag (hf : Settles as f) (ha : a.marker = .tag) :
    Takes as a f { f with tags := f.tags ++ [(as.length, a)] } where
  once := List.perm_iff_count.2 fun x => by
    simp only [Fates.all, List.count_append]
    omega
  tag := by
    intro t ht
    rcases List.mem_append.1 ht with ht | ht
    · exact hf.tag t ht
    · rwa [List.mem_singleton.1 ht]
  opener := hf.opener
  paired := fun o c => by simp [ha]
  unmatched := fun c => by simp [ha]
  pairs_inOrder := hf.pairs_inOrder
  tags_inOrder := hf.tags_inOrder.concat (hf.lt_last fun x hx => Fates.mem_all.2 (.inr (.inl hx)))
  unmatched_inOrder := hf.unmatched_inOrder
  unclosed_inOrder := hf.unclosed_inOrder

/-- An opener. -/
theorem takes_opener (hf : Settles as f) (ha : a.marker = .opener) :
    Takes as a f { f with unclosed := f.unclosed ++ [(as.length, a)] } where
  once := List.perm_iff_count.2 fun x => by
    simp only [Fates.all, List.count_append]
    omega
  tag := hf.tag
  opener := by
    intro o ho
    rcases List.mem_append.1 ho with ho | ho
    · exact hf.opener o ho
    · rwa [List.mem_singleton.1 ho]
  paired := fun o c => by simp [ha]
  unmatched := fun c => by simp [ha]
  pairs_inOrder := hf.pairs_inOrder
  tags_inOrder := hf.tags_inOrder
  unmatched_inOrder := hf.unmatched_inOrder
  unclosed_inOrder :=
    hf.unclosed_inOrder.concat (hf.lt_last fun x hx => Fates.mem_all.2 (.inr (.inr (.inr hx))))

/-- A closer that no opener waits for. -/
theorem takes_unmatched (hf : Settles as f) (ha : a.marker = .closer)
    (hnone : ∀ o ∈ f.unclosed, ¬ Closes a o.2) :
    Takes as a f { f with unmatched := f.unmatched ++ [(as.length, a)] } where
  once := List.perm_iff_count.2 fun x => by
    simp only [Fates.all, List.count_append]
    omega
  tag := hf.tag
  opener := hf.opener
  paired := fun o c => ⟨.inl, fun h => h.resolve_right fun h => hnone o h.2.2.1.1 h.2.2.1.2⟩
  unmatched := fun c => by
    rw [List.mem_append, List.mem_singleton, and_iff_left ⟨ha, hnone⟩]
  pairs_inOrder := hf.pairs_inOrder
  tags_inOrder := hf.tags_inOrder
  unmatched_inOrder :=
    hf.unmatched_inOrder.concat (hf.lt_last fun x hx => Fates.mem_all.2 (.inr (.inr (.inl hx))))
  unclosed_inOrder := hf.unclosed_inOrder

/-- The opener that is the last but for some that the closer may not close. -/
theorem latest_iff (hf : Settles as f) {xs ys : List Arrival} (hsplit : f.unclosed = xs ++ o :: ys)
    (hcloses : Closes a o.2) (hys : ∀ y ∈ ys, ¬ Closes a y.2) {o' : Arrival} :
    f.Latest a o' ↔ o' = o := by
  have hmem : o ∈ f.unclosed := by simp [hsplit]
  have horder := hf.unclosed_inOrder
  rw [hsplit] at horder
  have hlatest : ∀ o', o' ∈ f.unclosed ∧ Closes a o'.2 → o' = o ∨ o'.1 < o.1 := by
    rintro o' ⟨ho', hcloses'⟩
    rw [hsplit, List.mem_append, List.mem_cons] at ho'
    rcases ho' with ho' | rfl | ho'
    · exact .inr ((List.pairwise_append.1 horder).2.2 o' ho' o (List.mem_cons_self ..))
    · exact .inl rfl
    · exact absurd hcloses' (hys o' ho')
  constructor
  · rintro ⟨ho', hmax⟩
    exact (hlatest o' ho').resolve_right (Nat.not_lt.2 (hmax o ⟨hmem, hcloses⟩))
  · rintro rfl
    refine ⟨⟨hmem, hcloses⟩, fun o'' ho'' => ?_⟩
    rcases hlatest o'' ho'' with rfl | hlt
    · exact Nat.le_refl _
    · exact Nat.le_of_lt hlt

/-- A closer that an opener waits for. -/
theorem takes_paired (hf : Settles as f) (ha : a.marker = .closer) {xs ys : List Arrival}
    (hsplit : f.unclosed = xs ++ o :: ys) (hcloses : Closes a o.2) (hys : ∀ y ∈ ys, ¬ Closes a y.2) :
    Takes as a f { f with
      unclosed := xs ++ ys
      pairs := f.pairs ++ [(o, (as.length, a))] } where
  once := List.perm_iff_count.2 fun x => by
    simp only [Fates.all, hsplit, List.flatMap_append, List.flatMap_singleton, List.count_append,
      List.count_cons, List.count_nil]
    omega
  tag := hf.tag
  opener := fun o' ho' => hf.opener o' (by
    rw [hsplit]
    exact ((List.sublist_cons_self o ys).append_left xs).subset ho')
  paired := fun o' c => by
    rw [List.mem_append, List.mem_singleton, Prod.mk.injEq, hf.latest_iff hsplit hcloses hys]
    simp only [ha, true_and, and_comm]
  unmatched := fun c =>
    ⟨.inl, fun h => h.resolve_right fun h => h.2.2 o (by simp [hsplit]) hcloses⟩
  pairs_inOrder := by
    rw [List.map_append]
    refine hf.pairs_inOrder.concat (hf.lt_last fun x hx => ?_)
    obtain ⟨p, hp, rfl⟩ := List.mem_map.1 hx
    exact Fates.mem_all.2 (.inl ⟨p, hp, .inr rfl⟩)
  tags_inOrder := hf.tags_inOrder
  unmatched_inOrder := hf.unmatched_inOrder
  unclosed_inOrder := by
    have horder := hf.unclosed_inOrder
    rw [hsplit] at horder
    exact horder.sublist ((List.sublist_cons_self o ys).append_left xs)

end Settles

/-- A pairing takes the next mark, and the fates of all marks are settled again. -/
theorem settles_push (hf : Settles as f) (a : Mark) :
    ∃ f', f.pairing.push a = f'.pairing ∧ Settles (as ++ [a]) f' := by
  unfold push
  cases ha : a.marker with
  | tag => exact ⟨_, by simp [Fates.pairing], (hf.takes_tag ha).settles hf⟩
  | opener => exact ⟨_, by simp [Fates.pairing], (hf.takes_opener ha).settles hf⟩
  | closer =>
    have hfind : (f.pairing.pending.find? fun o => Closes a o) =
        (f.unclosed.reverse.find? fun o => Closes a o.2).map Prod.snd := by
      unfold Fates.pairing
      rw [← List.map_reverse, List.find?_map]
      rfl
    cases h : f.unclosed.reverse.find? fun o => Closes a o.2 with
    | none =>
      rw [h] at hfind
      simp only [hfind, Option.map_none]
      have hnone : ∀ o ∈ f.unclosed, ¬ Closes a o.2 := fun o ho => by
        simpa using List.find?_eq_none.1 h o (List.mem_reverse.2 ho)
      exact ⟨_, by simp [Fates.pairing], (hf.takes_unmatched ha hnone).settles hf⟩
    | some o =>
      rw [h] at hfind
      obtain ⟨hcloses, ys, xs, hsplit, hys⟩ := List.find?_eq_some_iff_append.1 h
      have hcloses : Closes a o.2 := by simpa using hcloses
      have hys : ∀ y ∈ ys, ¬ Closes a y.2 := fun y hy => by simpa using hys y hy
      have hunclosed : f.unclosed = xs.reverse ++ o :: ys.reverse := by
        simpa using congrArg List.reverse hsplit
      have herase : (f.pairing.pending.eraseP fun o => Closes a o) = ys.map Prod.snd ++ xs.map Prod.snd := by
        have hmap : ∀ b ∈ ys.map Prod.snd, ¬ decide (Closes a b) = true := fun b hb => by
          obtain ⟨y, hy, rfl⟩ := List.mem_map.1 hb
          simpa using hys y hy
        unfold Fates.pairing
        rw [← List.map_reverse, hsplit, List.map_append, List.eraseP_append_right _ hmap, List.map_cons,
          List.eraseP_cons_of_pos (by simpa using hcloses)]
      simp only [hfind, Option.map_some, herase]
      refine ⟨_, ?_, (hf.takes_paired ha hunclosed hcloses fun y hy => hys y (List.mem_reverse.1 hy)).settles hf⟩
      simp [Fates.pairing]

/-- The state of a pairing after some marks tells what has become of them. -/
theorem settles_foldl (as : List Mark) :
    ∃ f, as.foldl push start = f.pairing ∧ Settles as f := by
  induction as using List.reverseRec with
  | nil => exact ⟨⟨[], [], [], []⟩, rfl, settles_nil⟩
  | append_singleton as a ih =>
    obtain ⟨f, hstate, hf⟩ := ih
    obtain ⟨f', hstep, hf'⟩ := settles_push hf a
    exact ⟨f', by rw [List.foldl_append, hstate]; exact hstep, hf'⟩

/-- An opener comes to wait, and a closer that finds one takes it from those that wait. -/
theorem length_push (p : Pairing) (a : Mark) :
    (p.push a).pending.length + (p.push a).regions.length =
      p.pending.length + p.regions.length + if a.marker = .opener then 1 else 0 := by
  unfold push
  cases ha : a.marker with
  | tag => rfl
  | opener => exact Nat.add_right_comm ..
  | closer =>
    cases h : p.pending.find? fun o => Closes a o with
    | none => rfl
    | some o =>
      have hlength := List.length_eraseP_of_mem (List.mem_of_find?_eq_some h) (List.find?_some h)
      have hpos := List.length_pos_of_mem (List.mem_of_find?_eq_some h)
      simp only [hlength, List.length_append, List.length_singleton, reduceCtorEq, if_false]
      omega

theorem length_foldl (as : List Mark) :
    (as.foldl push start).pending.length + (as.foldl push start).regions.length =
      as.countP fun a => a.marker = .opener := by
  induction as using List.reverseRec with
  | nil => rfl
  | append_singleton as a ih =>
    rw [List.foldl_append, List.countP_append, ← ih, List.countP_singleton]
    simpa using length_push (as.foldl push start) a

/-- Every mark comes to be in one place, every closer with the latest opener that awaits it, and everything in
order. At any time as many openers wait as have come and are not in a region. -/
theorem settles_ofList (as : List Mark) :
    (∃ f, Settles as f ∧ Marks.ofList as = f.marks) ∧
      ∀ n, ((as.take n).foldl push start).pending.length +
        ((as.take n).foldl push start).regions.length =
          (as.take n).countP fun a => a.marker = .opener := by
  obtain ⟨f, hstate, hf⟩ := settles_foldl as
  refine ⟨⟨f, hf, ?_⟩, fun n => length_foldl (as.take n)⟩
  rw [Marks.ofList, hstate, f.finish_pairing]

/-! ## The fates are what the marks say -/

theorem InOrder.eq_of_mem {xs ys : List Arrival} (hxs : InOrder xs) (hys : InOrder ys)
    (h : ∀ x, x ∈ xs ↔ x ∈ ys) : xs = ys :=
  ((List.perm_ext_iff_of_nodup hxs.nodup hys.nodup).2 h).eq_of_pairwise
    (fun _ _ _ _ hxy hyx => absurd hxy (Nat.lt_asymm hyx)) hxs hys

variable {g : Fates}

/-- What awaits a closer depends on the pairs of earlier closers only. -/
theorem Fates.awaits_congr (h : ∀ d, d.1 < c.1 → ((o, d) ∈ f.pairs ↔ (o, d) ∈ g.pairs)) :
    f.Awaits as o c ↔ g.Awaits as o c :=
  ⟨fun ⟨hmem, ho, hlt, hcloses, hfree⟩ =>
      ⟨hmem, ho, hlt, hcloses, fun d hd hdc => hfree d ((h d hdc).2 hd) hdc⟩,
    fun ⟨hmem, ho, hlt, hcloses, hfree⟩ =>
      ⟨hmem, ho, hlt, hcloses, fun d hd hdc => hfree d ((h d hdc).1 hd) hdc⟩⟩

namespace Settles

theorem mem_pairs_iff (hf : Settles as f) (hg : Settles as g) (n : Nat) :
    ∀ o c, c.1 = n → ((o, c) ∈ f.pairs ↔ (o, c) ∈ g.pairs) := by
  induction n using Nat.strongRecOn with
  | ind n ih =>
    rintro o c rfl
    have hawaits : ∀ o, f.Awaits as o c ↔ g.Awaits as o c := fun o =>
      Fates.awaits_congr fun d hd => ih d.1 hd o d rfl
    rw [hf.paired, hg.paired]
    simp only [hawaits]

theorem pairs_eq (hf : Settles as f) (hg : Settles as g) : f.pairs = g.pairs := by
  have hf' := List.pairwise_map.1 hf.pairs_inOrder
  have hg' := List.pairwise_map.1 hg.pairs_inOrder
  have hnodup : ∀ {ps : List (Arrival × Arrival)}, ps.Pairwise (fun p q => p.2.1 < q.2.1) → ps.Nodup :=
    fun h => h.imp fun {p q} hlt (heq : p = q) => Nat.ne_of_lt hlt (by rw [heq])
  exact ((List.perm_ext_iff_of_nodup (hnodup hf') (hnodup hg')).2
    fun p => hf.mem_pairs_iff hg p.2.1 p.1 p.2 rfl).eq_of_pairwise
      (fun _ _ _ _ hpq hqp => absurd hpq (Nat.lt_asymm hqp)) hf' hg'

theorem mem_unclosed_iff (hf : Settles as f) : o ∈ f.unclosed ↔
    o ∈ numbered as ∧ o.2.marker = .opener ∧ ∀ c, (o, c) ∉ f.pairs :=
  ⟨fun ho => ⟨hf.mem.1 (Fates.mem_all.2 (.inr (.inr (.inr ho)))), hf.opener o ho, hf.not_paired ho⟩,
    fun ⟨hmem, ho, hfree⟩ => hf.mem_unclosed hmem ho hfree⟩

theorem mem_tags_iff (hf : Settles as f) : c ∈ f.tags ↔ c ∈ numbered as ∧ c.2.marker = .tag := by
  refine ⟨fun h => ⟨hf.mem.1 (Fates.mem_all.2 (.inr (.inl h))), hf.tag c h⟩, fun ⟨hmem, htag⟩ => ?_⟩
  have hne : ∀ m, c.2.marker = m → m = .tag := fun m hm => hm.symm.trans htag
  rcases Fates.mem_all.1 (hf.mem.2 hmem) with ⟨p, hp, rfl | rfl⟩ | h | hunmatched | hopener
  · cases hne _ ((hf.paired _ _).1 hp).2.2.1.opener
  · cases hne _ ((hf.paired _ _).1 hp).2.1
  · exact h
  · cases hne _ ((hf.unmatched c).1 hunmatched).2.1
  · cases hne _ (hf.opener c hopener)

/-- There is one way to settle the fates of some marks. -/
theorem unique (hf : Settles as f) (hg : Settles as g) : f = g := by
  have hpairs := hf.pairs_eq hg
  have htags : f.tags = g.tags := hf.tags_inOrder.eq_of_mem hg.tags_inOrder fun t => by
    rw [hf.mem_tags_iff, hg.mem_tags_iff]
  have hunmatched : f.unmatched = g.unmatched :=
    hf.unmatched_inOrder.eq_of_mem hg.unmatched_inOrder fun c => by
      have hawaits : ∀ o, f.Awaits as o c ↔ g.Awaits as o c := fun o =>
        Fates.awaits_congr fun d _ => by rw [hpairs]
      rw [hf.unmatched, hg.unmatched]
      simp only [hawaits]
  have hunclosed : f.unclosed = g.unclosed :=
    hf.unclosed_inOrder.eq_of_mem hg.unclosed_inOrder fun o => by
      rw [hf.mem_unclosed_iff, hg.mem_unclosed_iff, hpairs]
  cases f
  cases g
  simp_all

end Settles

/-- The marks of a document are those of any fates that are settled. -/
theorem Settles.ofList_eq (hf : Settles as f) : Marks.ofList as = f.marks := by
  obtain ⟨g, hstate, hg⟩ := settles_foldl as
  rw [hf.unique hg, Marks.ofList, hstate, g.finish_pairing]

end Pairing

end SymbolOutline
