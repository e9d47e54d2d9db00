import Mathlib.Data.List.Pairwise
import Mathlib.Data.List.Perm.Basic
import SymbolOutline.Proofs.Insertion
import SymbolOutline.Proofs.Layout
import SymbolOutline.Proofs.Resting

/-
When the order of a list of diagnostics matters (`apply_perm_iff`). Diagnostics are taken in the order of
the lines that they start on, and those that start on one line in the order in which they are listed. Each is
looked for first around the place where the one before it rests. So a diagnostic is misled if an entry on the
way to the one before it reaches beyond an entry above it, and if an entry that the one before it passed by
reaches into the lines of both. Otherwise (`Steady`) each diagnostic rests where it would alone.

Two spans that start on the same line are enough to tell (`steady_of_rest_eq`). Siblings are in the order of
their starts, so an entry is passed by only because it ends too early.
-/

namespace SymbolOutline

open Forest Rose

namespace Outline

variable {o : Outline} {ts : Forest Item} {t : Rose Item} {d e : Span} {n : Nat} {a b : Address}

/-! ## The way down -/

/-- A tree is the first of its siblings that contains the lines of a span. -/
structure FirstAround (d : Span) (ts : Forest Item) (n : Nat) (t : Rose Item) : Prop where
  here : ts[n]? = some t
  covers : t.value.range.CoversLines d
  before : ∀ m, m < n → ∀ u, ts[m]? = some u → ¬ u.value.range.CoversLines d

theorem descendFrom_of_firstAround (h : FirstAround d ts n t) (k : Nat) :
    descendFrom d k ts = (k + n) :: descendFrom d 0 t.children := by
  induction ts generalizing n k with
  | nil => cases h.here
  | cons s ts ih =>
    rw [descendFrom]
    cases n with
    | zero =>
      obtain rfl : s = t := Option.some.inj h.here
      rw [if_pos h.covers, descend_eq]
      rfl
    | succ n =>
      rw [if_neg (h.before 0 (Nat.succ_pos n) s rfl),
        ih ⟨h.here, h.covers, fun m hm u hu => h.before (m + 1) (Nat.succ_lt_succ hm) u hu⟩ (k + 1)]
      congr 1
      omega

theorem exists_firstAround (h : Rooted ts d) : ∃ n t, FirstAround d ts n t := by
  induction ts with
  | nil =>
    obtain ⟨t, ht, -⟩ := h
    cases ht
  | cons s ts ih =>
    by_cases hs : s.value.range.CoversLines d
    · exact ⟨0, s, rfl, hs, fun m hm => absurd hm (Nat.not_lt_zero m)⟩
    · obtain ⟨t, ht, hd⟩ := h
      have hts : Rooted ts d := by
        rcases List.mem_cons.1 ht with rfl | ht
        · exact absurd hd hs
        · exact ⟨t, ht, hd⟩
      obtain ⟨n, t, hn, hcovers, hbefore⟩ := ih hts
      refine ⟨n + 1, t, hn, hcovers, fun m hm u hu => ?_⟩
      cases m with
      | zero =>
        obtain rfl : s = u := Option.some.inj hu
        exact hs
      | succ m => exact hbefore m (Nat.lt_of_succ_lt_succ hm) u hu

/-- The way down starts with the first sibling around the span. -/
theorem cons_prefix_descendFrom :
    n :: a <+: descendFrom d 0 ts ↔ ∃ t, FirstAround d ts n t ∧ a <+: descendFrom d 0 t.children := by
  constructor
  · intro h
    by_cases hr : Rooted ts d
    · obtain ⟨m, t, hfirst⟩ := exists_firstAround hr
      rw [descendFrom_of_firstAround hfirst, Nat.zero_add, List.cons_prefix_cons] at h
      obtain ⟨rfl, h⟩ := h
      exact ⟨t, hfirst, h⟩
    · rw [descendFrom_eq_nil hr] at h
      cases List.prefix_nil.1 h
  · rintro ⟨t, hfirst, h⟩
    rw [descendFrom_of_firstAround hfirst, Nat.zero_add, List.cons_prefix_cons]
    exact ⟨rfl, h⟩

/-- On the way down from the roots, each entry is the first of its siblings around the span. -/
def OnWay (ts : Forest Item) (d : Span) (a : Address) : Prop :=
  ∀ b n, b ++ [n] <+: a → (∃ i ∈ valueAt? ts (b ++ [n]), i.range.CoversLines d) ∧
    ∀ m, m < n → ∀ i ∈ valueAt? ts (b ++ [m]), ¬ i.range.CoversLines d

theorem onWay_cons : OnWay ts d (n :: a) ↔ ∃ t, FirstAround d ts n t ∧ OnWay t.children d a := by
  have hsnoc : ∀ {t : Rose Item} {k : Nat} {b : Address} {m : Nat}, ts[k]? = some t →
      Forest.valueAt? ts (k :: b ++ [m]) = Forest.valueAt? t.children (b ++ [m]) := fun ht => by
    rw [List.cons_append, valueAt?_cons ht, valueAt?_of_ne_nil (by simp)]
  constructor
  · intro h
    obtain ⟨⟨i, hi, hd⟩, hbefore⟩ := h [] n (List.prefix_append [n] a)
    obtain ⟨t, ht, hti⟩ := Option.bind_eq_some_iff.1 hi
    obtain rfl : t.value = i := Option.some.inj hti
    refine ⟨t, ⟨ht, hd, fun m hm u hu => ?_⟩, fun b k hb => ?_⟩
    · exact hbefore m hm u.value (by rw [List.nil_append, Forest.valueAt?, hu]; rfl)
    · have := h (n :: b) k (List.cons_prefix_cons.2 ⟨rfl, hb⟩)
      rw [hsnoc ht] at this
      exact ⟨this.1, fun m hm i hi => this.2 m hm i (by rwa [hsnoc ht])⟩
  · rintro ⟨t, ⟨ht, hd, hbefore⟩, h⟩ b k hb
    cases b with
    | nil =>
      obtain ⟨rfl, -⟩ := List.cons_prefix_cons.1 hb
      refine ⟨⟨t.value, by rw [List.nil_append, Forest.valueAt?, ht]; rfl, hd⟩, fun m hm i hi => ?_⟩
      obtain ⟨u, hu, hui⟩ := Option.bind_eq_some_iff.1 hi
      obtain rfl : u.value = i := Option.some.inj hui
      exact hbefore m hm u hu
    | cons m b =>
      obtain ⟨rfl, hbelow⟩ := List.cons_prefix_cons.1 hb
      have := h b k hbelow
      rw [hsnoc ht]
      exact ⟨this.1, fun l hl i hi => this.2 l hl i (by rwa [hsnoc ht] at hi)⟩

theorem prefix_descendFrom_iff : a <+: descendFrom d 0 ts ↔ OnWay ts d a := by
  induction a generalizing ts with
  | nil => exact iff_of_true List.nil_prefix fun b n hb => by simpa using List.prefix_nil.1 hb
  | cons n a ih =>
    rw [cons_prefix_descendFrom, onWay_cons]
    exact exists_congr fun t => and_congr_right fun _ => ih

/-- An entry at an address contains the lines of a span. -/
def Around (ts : Forest Item) (d : Span) (a : Address) : Prop :=
  ∃ i ∈ valueAt? ts a, i.range.CoversLines d

/-- Every entry on the way down contains the span. -/
theorem around_of_prefix (h : a <+: descendFrom d 0 ts) (ha : a ≠ []) : Around ts d a := by
  obtain ⟨b, n, rfl⟩ : ∃ b n, a = b ++ [n] := ⟨_, _, (List.dropLast_concat_getLast ha).symm⟩
  exact (prefix_descendFrom_iff.1 h b n (List.prefix_refl _)).1

theorem around_cons (ht : ts[n]? = some t) (ha : a ≠ []) : Around ts d (n :: a) ↔ Around t.children d a := by
  unfold Around
  rw [valueAt?_cons ht, valueAt?_of_ne_nil ha]

theorem ne_nil_of_around (h : Around ts d a) : a ≠ [] := by
  rintro rfl
  obtain ⟨i, hi, -⟩ := h
  cases hi

/-- An entry around the span on an address is the one at the top or below it. -/
theorem eq_or_below_of_around (ht : ts[n]? = some t) (hb : b <+: n :: a) (h : Around ts d b) :
    b = [n] ∨ ∃ c, b = n :: c ∧ c <+: a ∧ Around t.children d c := by
  rcases List.prefix_cons_iff.1 hb with rfl | ⟨c, rfl, hc⟩
  · exact absurd rfl (ne_nil_of_around h)
  · by_cases hnil : c = []
    · exact .inl (by rw [hnil])
    · exact .inr ⟨c, rfl, hc, (around_cons ht hnil).1 h⟩

theorem descendFrom_of_prefix_cons (ht : ts[n]? = some t) (h : n :: a <+: descendFrom d 0 ts) :
    descendFrom d 0 ts = n :: descendFrom d 0 t.children ∧ a <+: descendFrom d 0 t.children := by
  obtain ⟨u, hfirst, ha⟩ := cons_prefix_descendFrom.1 h
  obtain rfl : t = u := Option.some.inj (ht.symm.trans hfirst.here)
  rw [descendFrom_of_firstAround hfirst, Nat.zero_add]
  exact ⟨rfl, ha⟩

/-- From the innermost entry on an address that contains the span, the way goes down. If that entry is on the
way down from the roots, it is the same way. -/
theorem exists_innermost (h : settle? d ts a = some b) :
    ∃ c, Around ts d c ∧ c <+: a ∧ c <+: b ∧ (∀ x, x <+: a → Around ts d x → x <+: c) ∧
      (c <+: descendFrom d 0 ts → b = descendFrom d 0 ts) := by
  induction a generalizing ts b with
  | nil => cases h
  | cons n a ih =>
    rw [settle?] at h
    cases ht : ts[n]? with
    | none => simp [ht] at h
    | some t =>
      simp only [ht] at h
      cases hs : settle? d t.children a with
      | some b' =>
        simp only [hs, Option.some.injEq] at h
        obtain ⟨c, hc, hca, hcb, hmax, hdown⟩ := ih hs
        subst h
        refine ⟨n :: c, (around_cons ht (ne_nil_of_around hc)).2 hc, List.cons_prefix_cons.2 ⟨rfl, hca⟩,
          List.cons_prefix_cons.2 ⟨rfl, hcb⟩, fun x hx hd => ?_, fun hc => ?_⟩
        · rcases eq_or_below_of_around ht hx hd with rfl | ⟨y, rfl, hy, hd⟩
          · exact List.cons_prefix_cons.2 ⟨rfl, List.nil_prefix⟩
          · exact List.cons_prefix_cons.2 ⟨rfl, hmax y hy hd⟩
        · obtain ⟨heq, hc⟩ := descendFrom_of_prefix_cons ht hc
          rw [heq, hdown hc]
      | none =>
        simp only [hs, Option.ite_none_right_eq_some, Option.some.injEq, descend_eq] at h
        obtain ⟨hd, rfl⟩ := h
        have hnone : ∀ y, y <+: a → ¬ Around t.children d y := fun y hy hd =>
          settle?_eq_none.1 hs ⟨y, hy, hd⟩
        refine ⟨[n], ⟨t.value, by rw [valueAt?_cons ht]; rfl, hd⟩, List.prefix_append [n] a,
          List.prefix_append [n] _, fun x hx hd => ?_, fun hc => ?_⟩
        · rcases eq_or_below_of_around ht hx hd with rfl | ⟨y, rfl, hy, hd⟩
          · exact List.prefix_refl _
          · exact absurd hd (hnone y hy)
        · exact (descendFrom_of_prefix_cons ht hc).1.symm

/-! ## Ways that do not mislead -/

/-- Where a span comes to rest that no other comes before. -/
theorem rest_nil (o : Outline) (d : Span) : o.rest [] d = descendFrom d 0 o := rest_of_not_along not_along_nil

/-- On the way down for any span, no entry reaches beyond the one above it, and the siblings that are passed
by end before the span starts. -/
structure Steady (o : Outline) : Prop where
  within : ∀ d a n, a ++ [n] <+: descendFrom d 0 o →
    ∀ i ∈ valueAt? o a, ∀ j ∈ valueAt? o (a ++ [n]), j.range.lastLine ≤ i.range.lastLine
  passed : ∀ d a n, a ++ [n] <+: descendFrom d 0 o →
    ∀ m, m < n → ∀ i ∈ valueAt? o (a ++ [m]), i.range.lastLine < d.firstLine

/-- An outline is steady if no entry reaches beyond the one right above it, and no two siblings share a
line. -/
theorem steady_of_apart
    (hwithin : ∀ a n, ∀ i ∈ valueAt? o a, ∀ j ∈ valueAt? o (a ++ [n]), j.range.lastLine ≤ i.range.lastLine)
    (hapart : ∀ a m n, m < n → ∀ i ∈ valueAt? o (a ++ [m]), ∀ j ∈ valueAt? o (a ++ [n]),
      i.range.lastLine < j.range.firstLine) : Steady o where
  within _ a n _ := hwithin a n
  passed d a n h m hm i hi := by
    obtain ⟨j, hj, hjd⟩ := around_of_prefix h (by simp)
    exact (hapart a m n hm i hi j hj).trans_le hjd.1

/-- On the way to a span, the entries above one that contains a later span contain it too. -/
theorem Steady.around_above (hs : Steady o) (hle : d.firstLine ≤ e.firstLine) (ha : a <+: descendFrom d 0 o)
    (h : Around o e a) (hb : b ≠ []) (hba : b <+: a) : Around o e b := by
  obtain ⟨c, rfl⟩ := hba
  induction c using List.reverseRecOn with
  | nil => rwa [List.append_nil] at h
  | append_singleton c n ih =>
    rw [← List.append_assoc] at ha h
    have habove := (List.prefix_append (b ++ c) [n]).trans ha
    obtain ⟨j, hj, hje⟩ := h
    obtain ⟨i, hi, hid⟩ := around_of_prefix habove (by simp [hb])
    exact ih habove ⟨i, hi, hid.1.trans hle, hje.2.trans (hs.within d _ n ha i hi j hj)⟩

/-- The way to a later span is the same, down to any entry that contains it. -/
theorem Steady.prefix_way (hs : Steady o) (hle : d.firstLine ≤ e.firstLine) (ha : a <+: descendFrom d 0 o)
    (h : Around o e a) : a <+: descendFrom e 0 o := by
  rw [prefix_descendFrom_iff]
  intro b n hb
  refine ⟨hs.around_above hle ha h (by simp) hb, fun m hm i hi hie => ?_⟩
  have hlast := hs.passed d b n (hb.trans ha) m hm i hi
  have := e.firstLine_le_lastLine
  have := hie.2
  omega

/-- In a steady outline a span comes to rest where it would alone, after any span that does not start on
a later line. -/
theorem Steady.rest_eq (hs : Steady o) (hle : d.firstLine ≤ e.firstLine) :
    o.rest (o.rest [] d) e = o.rest [] e := by
  by_cases halong : Along o (o.rest [] d) e
  · obtain ⟨r, hr, hrest⟩ := rest_of_along halong
    obtain ⟨c, hc, hcd, -, -, hdown⟩ := exists_innermost hr
    rw [rest_nil] at hcd
    rw [hrest, rest_nil, hdown (hs.prefix_way hle hcd hc)]
  · rw [rest_of_not_along halong, rest_nil]

/-- An entry around a span on the address where another one rests is on the way to where it rests after
that one. -/
theorem prefix_rest (hb : b <+: a) (hd : Around o d b) : b <+: o.rest a d := by
  obtain ⟨r, hr, hrest⟩ := rest_of_along ⟨b, hb, hd⟩
  obtain ⟨c, -, -, hcr, hmax, -⟩ := exists_innermost hr
  rw [hrest]
  exact (hmax b hb hd).trans hcr

theorem lines_ofLines {first last : Nat} (h : first ≤ last) :
    (Span.ofLines first last).firstLine = first ∧ (Span.ofLines first last).lastLine = last := by
  have hle : (⟨first, 0⟩ : Position) ≤ ⟨last, 0⟩ := by
    rw [Position.le_def]
    simp only [Nat.le_refl, and_true]
    omega
  unfold Span.ofLines Span.ofCoords Span.between
  rw [dif_pos hle]
  exact ⟨rfl, rfl⟩

/-- An outline is steady if of two spans that start on the same line the second always comes to rest where it
would alone. Otherwise one that reaches as far as an entry that goes beyond the one above it, or only as far as
one that is passed by, would be misled. -/
theorem steady_of_rest_eq (hl : LaidOut o)
    (h : ∀ d e : Span, d.firstLine = e.firstLine → o.rest (o.rest [] d) e = o.rest [] e) : Steady o := by
  -- the way to an entry is the way of any span that starts on the same line and ends within it
  have hway : ∀ {d : Span} {a : Address} {j : Item} {last : Nat}, a <+: descendFrom d 0 o →
      j ∈ valueAt? o a → j.range.CoversLines d → d.firstLine ≤ last → last ≤ j.range.lastLine →
      a <+: descendFrom (.ofLines d.firstLine last) 0 o := by
    intro d a j last ha hj hjd hlast hend
    obtain ⟨hfirst, hstop⟩ := lines_ofLines hlast
    have hafter : a <+: o.rest (o.rest [] d) (.ofLines d.firstLine last) := by
      refine prefix_rest (by rwa [rest_nil]) ⟨j, hj, ?_, ?_⟩
      · rw [hfirst]
        exact hjd.1
      · rwa [hstop]
    rwa [h d _ hfirst.symm, rest_nil] at hafter
  constructor
  · intro d a n ha i hi j hj
    obtain ⟨j', hj', hjd⟩ := around_of_prefix ha (by simp)
    obtain rfl : j = j' := Option.some.inj (hj.symm.trans hj')
    have hspan : d.firstLine ≤ j.range.lastLine := d.firstLine_le_lastLine.trans hjd.2
    have hlong := hway ha hj hjd hspan (Nat.le_refl _)
    obtain ⟨i', hi', -, hreach⟩ :=
      around_of_prefix ((List.prefix_append a [n]).trans hlong) (by rintro rfl; cases hi)
    obtain rfl : i = i' := Option.some.inj (hi.symm.trans hi')
    rwa [(lines_ofLines hspan).2] at hreach
  · intro d a n ha m hm i hi
    by_contra hlast
    rw [Nat.not_lt] at hlast
    obtain ⟨⟨j, hj, hjd⟩, hbefore⟩ := prefix_descendFrom_iff.1 ha a n (List.prefix_refl _)
    have hstart : i.range.firstLine ≤ d.firstLine :=
      (Position.line_le (hl.beside a m n hm i hi j hj).start).trans hjd.1
    have hstop : i.range.lastLine ≤ d.lastLine := by
      by_contra hbeyond
      exact hbefore m hm i hi ⟨hstart, Nat.le_of_not_le hbeyond⟩
    have hshort := hway ha hj hjd hlast (hstop.trans hjd.2)
    obtain ⟨hfirst, hend⟩ := lines_ofLines hlast
    refine (prefix_descendFrom_iff.1 hshort a n (List.prefix_refl _)).2 m hm i hi ⟨?_, ?_⟩
    · rwa [hfirst]
    · rw [hend]

/-! ## One after the other -/

theorem Steady.rests_behind (hs : Steady o) {q : List (Span × Severity)}
    (hq : q.Pairwise fun d e => d.1.firstLine ≤ e.1.firstLine) (hle : ∀ d ∈ q, e.firstLine ≤ d.1.firstLine) :
    o.rests (o.rest [] e) q = q.map fun d => (o.rest [] d.1, d.2) := by
  induction q generalizing e with
  | nil => rfl
  | cons d q ih =>
    obtain ⟨hfirst, hrest⟩ := List.pairwise_cons.1 hq
    rw [rests, hs.rest_eq (hle d (List.mem_cons_self ..)), ih hrest hfirst]
    rfl

/-- In a steady outline each of the spans comes to rest where it would alone. -/
theorem Steady.rests_eq_map (hs : Steady o) {q : List (Span × Severity)}
    (hq : q.Pairwise fun d e => d.1.firstLine ≤ e.1.firstLine) :
    o.rests [] q = q.map fun d => (o.rest [] d.1, d.2) := by
  cases q with
  | nil => rfl
  | cons d q =>
    obtain ⟨hfirst, hrest⟩ := List.pairwise_cons.1 hq
    rw [rests, hs.rests_behind hrest hfirst]
    rfl

theorem pairwise_queue (ds : List Diagnostic) :
    (Diagnostic.queue ds).Pairwise fun d e => d.1.firstLine ≤ e.1.firstLine := by
  have hsorted : (Diagnostic.queue ds).Pairwise fun d e =>
      decide (d.1.firstLine ≤ e.1.firstLine) = true := by
    refine List.pairwise_mergeSort ?_ (fun d e => by simpa using Nat.le_total _ _) _
    exact fun a b c hab hbc => decide_eq_true ((of_decide_eq_true hab).trans (of_decide_eq_true hbc))
  exact hsorted.imp of_decide_eq_true

theorem perm_queue {ds ds' : List Diagnostic} (h : ds.Perm ds') :
    (Diagnostic.queue ds).Perm (Diagnostic.queue ds') :=
  (List.mergeSort_perm _ _).trans ((h.filterMap _).trans (List.mergeSort_perm _ _).symm)

section

variable {found more : List (Address × Severity)}

theorem add_perm (h : found.Perm more) (t : Tally) : t.add found = t.add more := by
  unfold Tally.add
  rw [h.countP_eq, h.countP_eq, h.any_eq, h.any_eq]

theorem tallyFrom_perm (h : found.Perm more) (n : Nat) (ts : Forest Item) :
    tallyFrom n found ts = tallyFrom n more ts := by
  induction ts using induct_forest generalizing n found more with
  | nil => rfl
  | cons i cs ss ihc ih =>
    have hshare : (share n found).Perm (share n more) := h.filterMap _
    rw [tallyFrom, tallyFrom, tally, tally, add_perm hshare, ihc hshare, ih h]

theorem touchedFrom_perm (h : found.Perm more) (n : Nat) (ts : Forest Item) :
    touchedFrom n found ts = touchedFrom n more ts := by
  induction ts using induct_forest generalizing n found more with
  | nil => rfl
  | cons i cs ss ihc ih =>
    have hshare : (share n found).Perm (share n more) := h.filterMap _
    have hnil : share n found = [] ↔ share n more = [] := by
      rw [← List.length_eq_zero_iff, ← List.length_eq_zero_iff, hshare.length_eq]
    rw [touchedFrom, touchedFrom, touched, touched, ihc hshare, ih h]
    simp only [hnil]

end

theorem rests_of_untally_eq {o' : Outline} (h : o'.untally = o.untally) (a : Address)
    (q : List (Span × Severity)) : o'.rests a q = o.rests a q := by
  have huntallied : ∀ o : Outline, o.untally.rests a q = o.rests a q := fun o =>
    rests_mapAll (f := Item.untally) (fun _ => rfl) o a q
  rw [← huntallied, h, huntallied]

end Outline

namespace Badges

open Outline

variable {o o' : Outline} {b : Badges} {ds ds' : List Diagnostic}

/-- In a steady outline the order of a list does not matter, whatever was counted before. -/
theorem apply_perm (hs : Steady o) (ho : o'.untally = o.untally) (b : Badges)
    (h : ds.Perm ds') : b.apply o' ds = b.apply o' ds' := by
  have hwiped := (untally_wipe b.touched.toList o').trans ho
  have hfound : ((wipe b.touched.toList o').rests [] (Diagnostic.queue ds)).Perm
      ((wipe b.touched.toList o').rests [] (Diagnostic.queue ds')) := by
    rw [rests_of_untally_eq hwiped, rests_of_untally_eq hwiped, hs.rests_eq_map (pairwise_queue ds),
      hs.rests_eq_map (pairwise_queue ds')]
    exact (perm_queue h).map _
  unfold apply
  simp only [tallyFrom_perm hfound, touchedFrom_perm hfound]

/-- An error and a warning that start on the same line are taken in the order in which they are listed. -/
theorem queue_pair {d e : Span} (h : d.firstLine = e.firstLine) {s s' : Severity}
    (hs : s = .error ∨ s = .warning) (hs' : s' = .error ∨ s' = .warning) :
    Diagnostic.queue [⟨d, some s, .none, .none, ""⟩, ⟨e, some s', .none, .none, ""⟩] = [(d, s), (e, s')] := by
  have hgrave : ([⟨d, some s, .none, .none, ""⟩, ⟨e, some s', .none, .none, ""⟩] :
      List Diagnostic).filterMap Diagnostic.grave? = [(d, s), (e, s')] := by
    rcases hs with rfl | rfl <;> rcases hs' with rfl | rfl <;> rfl
  unfold Diagnostic.queue
  rw [hgrave]
  exact List.mergeSort_of_pairwise (by simp [h])

/-- The entries of severity that are counted tell where diagnostics came to rest. -/
theorem mem_rests_iff (hz : ∀ i ∈ o.items, i.tally = .zero) (hds : ds.length < UInt32.size) {a : Address}
    {s : Severity} : (∃ t ∈ Forest.valueAt? (Badges.none.apply o ds).2.1.tallies a, t.own s ≠ 0) ↔
      a ≠ [] ∧ (a, s) ∈ o.rests [] (Diagnostic.queue ds) := by
  rw [← exists_own_ne_zero hz (countable_rests o hds) (live_rests o [] (Diagnostic.queue ds)), tallies,
    Forest.valueAt?_mapAll]
  constructor
  · rintro ⟨t, ht, hne⟩
    obtain ⟨i, hi, rfl⟩ := Option.map_eq_some_iff.1 ht
    exact ⟨i, hi, hne⟩
  · rintro ⟨i, hi, hne⟩
    exact ⟨i.tally, Option.map_eq_some_iff.2 ⟨i, hi, rfl⟩, hne⟩

/-- If the order of a list never matters to the tallies, the outline is steady: two diagnostics would tell. -/
theorem steady_of_tallies_eq (hl : LaidOut o) (hz : ∀ i ∈ o.items, i.tally = .zero)
    (h : ∀ ds ds' : List Diagnostic, ds.Perm ds' →
      (Badges.none.apply o ds).2.1.tallies = (Badges.none.apply o ds').2.1.tallies) : Steady o := by
  refine steady_of_rest_eq hl fun d e hline => ?_
  let ds : List Diagnostic := [⟨d, some .error, .none, .none, ""⟩, ⟨e, some .warning, .none, .none, ""⟩]
  let ds' : List Diagnostic := [⟨e, some .warning, .none, .none, ""⟩, ⟨d, some .error, .none, .none, ""⟩]
  -- the warning comes second in one of the lists, and first in the other
  have hsame : ∀ a, a ≠ [] → (a = o.rest (o.rest [] d) e ↔ a = o.rest [] e) := by
    intro a ha
    have hds := @mem_rests_iff o ds hz (by decide : 2 < UInt32.size) a .warning
    have hds' := @mem_rests_iff o ds' hz (by decide : 2 < UInt32.size) a .warning
    rw [h ds ds' (.swap ..), hds', queue_pair hline (.inl rfl) (.inr rfl),
      queue_pair hline.symm (.inr rfl) (.inl rfl)] at hds
    simpa [rests, ha, eq_comm] using hds.symm
  by_cases hnil : o.rest [] e = []
  · by_contra hne
    rw [hnil] at hne
    exact absurd ((hsame _ hne).1 rfl) (by rw [hnil]; exact hne)
  · exact ((hsame _ hnil).2 rfl).symm

/-- The order of a list does not matter either where no two of its errors and warnings start on the same
line. -/
theorem apply_perm_of_lines (b : Badges) (o : Outline) (h : ds.Perm ds')
    (hlines : (ds.filterMap Diagnostic.grave?).Pairwise fun d e => d.1.firstLine ≠ e.1.firstLine) :
    b.apply o ds = b.apply o ds' := by
  have hqueue : Diagnostic.queue ds = Diagnostic.queue ds' := by
    refine (perm_queue h).eq_of_pairwise (fun d e hd he hde hed => ?_) (pairwise_queue ds) (pairwise_queue ds')
    have hmem : ∀ {f}, f ∈ Diagnostic.queue ds → f ∈ ds.filterMap Diagnostic.grave? :=
      (List.mergeSort_perm _ _).mem_iff.1
    have hsymm : Std.Symm fun d e : Span × Severity => d.1.firstLine ≠ e.1.firstLine := ⟨fun _ _ h => h.symm⟩
    by_contra hne
    exact hlines.forall (hmem hd) (hmem ((perm_queue h).mem_iff.2 he)) hne (Nat.le_antisymm hde hed)
  unfold apply
  rw [hqueue]

/-- The badges do not depend on the order of a list exactly if the outline is steady, whether something was
counted before or nothing. -/
theorem apply_perm_iff (hidden : List Kind) (symbols : Forest Symbol) :
    let o := ofSymbols hidden symbols
    (Steady o ↔ ∀ o', o'.untally = o.untally → ∀ b : Badges, ∀ ds ds', ds.Perm ds' →
      b.apply o' ds = b.apply o' ds') ∧
    (Steady o ↔ ∀ ds ds', ds.Perm ds' →
      (Badges.none.apply o ds).2.1.tallies = (Badges.none.apply o ds').2.1.tallies) := by
  intro o
  have hperm : Steady o → ∀ o', o'.untally = o.untally → ∀ b : Badges, ∀ ds ds', ds.Perm ds' →
      b.apply o' ds = b.apply o' ds' := fun hs o' ho b ds ds' h => apply_perm hs ho b h
  have hsteady : (∀ ds ds', ds.Perm ds' → (Badges.none.apply o ds).2.1.tallies =
      (Badges.none.apply o ds').2.1.tallies) → Steady o :=
    steady_of_tallies_eq (laidOut_ofSymbols hidden symbols).1 (tally_of_mem_ofSymbols hidden symbols)
  constructor
  · exact ⟨hperm, fun h => hsteady fun ds ds' hd => by rw [h o rfl .none ds ds' hd]⟩
  · exact ⟨fun hs ds ds' hd => by rw [hperm hs o rfl .none ds ds' hd], hsteady⟩

/-- Two errors that start on the same line. The first lies in `c`, which is below `a`, and in `b`; the
second lies in `b` only. Listed second, the first is counted at `b`. -/
theorem tallies_listed_otherwise :
    let c : Rose Symbol := node ⟨⟨.function, "c"⟩, .none, .ofLines 3 4, .ofLines 3 3⟩ []
    let o := ofSymbols [] [
      node ⟨⟨.function, "a"⟩, .none, .ofLines 0 5, .ofLines 0 0⟩ [c],
      node ⟨⟨.function, "b"⟩, .none, .ofLines 3 8, .ofLines 3 3⟩ []]
    let error (first last : Nat) : Diagnostic := ⟨.ofLines first last, some .error, .none, .none, ""⟩
    Distinct o ∧ [error 3 4, error 3 7].Perm [error 3 7, error 3 4] ∧
      (Badges.none.apply o [error 3 4, error 3 7]).2.1.tallies ≠
        (Badges.none.apply o [error 3 7, error 3 4]).2.1.tallies := by
  simp only [ofSymbols_eq_inserted]
  refine ⟨by decide +kernel, .swap .., ?_⟩
  simp only [apply, Diagnostic.queue_eq_insertionSort]
  decide +kernel

end Badges

end SymbolOutline
