import Mathlib.Data.List.Induction
import SymbolOutline.Proofs.Reconcile

/-
How a comparison of siblings arranges them. The changes for a matched entry arrange nothing at the
place of the siblings (`arranging_revise`), and siblings that are the same at either end leave those
between them to be arranged (`exists_arranged_eq`). So one sibling that goes elsewhere takes one
move, siblings that come or go together take one insertion or deletion, and a mere reordering takes
fewer moves than there are siblings (`sparing_reconcile`).
-/

namespace SymbolOutline

open Forest Rose

/-! ## Changes to the arrangement at a place -/

/-- The changes of an outcome that arrange the entries at a place. -/
def Delta.arranging (place : Path) (d : Delta) : List Change :=
  d.changes.filter fun c => c.isStructural && c.path = place

namespace Outline

/-- No entry of a forest carries the path of a place. -/
def NoneAt (place : Path) (ts : Forest Item) : Prop := ∀ i ∈ valuesAll ts, i.path ≠ place

variable {place q : Path} {next : Option Key} {c : Change} {d e : Delta} {o n : Rose Item}
  {old new os ns l r : Forest Item}

@[simp] theorem arranging_append : (d ++ e).arranging q = d.arranging q ++ e.arranging q :=
  List.filter_append ..

theorem arranging_just (h : c.isStructural = true) : (Delta.just c).arranging c.path = [c] :=
  List.filter_cons_of_pos (by simp [h])

theorem arranging_just_of_ne (h : c.path ≠ q) : (Delta.just c).arranging q = [] :=
  List.filter_cons_of_neg (by simp [h])

theorem arranging_updatesTo (i j : Item) (es : List (Path × Bool)) :
    (Delta.mk (i.updatesTo j) es).arranging q = [] := by
  refine List.filter_eq_nil_iff.2 fun c hc => ?_
  obtain ⟨property, value, rfl⟩ := Item.mem_updatesTo hc
  exact Bool.false_ne_true

theorem arranging_exchange : (exchange place old new next).arranging place =
    (if old = [] then [] else [.delete place (old.map Rose.key)]) ++
      (if new = [] then [] else [.insert place next new]) := by
  unfold exchange
  rw [arranging_append]
  congr 1 <;> split
  · rfl
  · exact arranging_just (c := .delete place _) rfl
  · rfl
  · exact arranging_just (c := .insert place next new) rfl

theorem arranging_exchange_of_ne (h : place ≠ q) :
    (exchange place old new next).arranging q = [] := by
  unfold exchange
  rw [arranging_append, List.append_eq_nil_iff]
  constructor <;> split
  · rfl
  · exact arranging_just_of_ne h
  · rfl
  · exact arranging_just_of_ne h

theorem arranging_pass (passed : Forest Item) (k : Key) (before : Option Key) :
    (pass place passed k before).arranging place =
      if passed = [] then [] else [.move place [k] before] := by
  unfold pass
  split
  · rfl
  · exact arranging_just (c := .move place [k] before) rfl

theorem arranging_pass_of_ne (h : place ≠ q) (passed : Forest Item) (k : Key)
    (before : Option Key) : (pass place passed k before).arranging q = [] := by
  unfold pass
  split
  · rfl
  · exact arranging_just_of_ne h

theorem noneAt_cons :
    NoneAt q (n :: ns) ↔ n.value.path ≠ q ∧ NoneAt q n.children ∧ NoneAt q ns := by
  obtain ⟨i, cs⟩ := n
  simp [NoneAt, valuesAll_cons, or_imp, forall_and]

theorem noneAt_append : NoneAt q (os ++ ns) ↔ NoneAt q os ∧ NoneAt q ns := by
  simp [NoneAt, valuesAll_append, or_imp, forall_and]

theorem noneAt_one (h : NoneAt q (n :: ns)) : NoneAt q [n] := by
  obtain ⟨hn, hcs, -⟩ := noneAt_cons.1 h
  exact noneAt_cons.2 ⟨hn, hcs, fun _ h => absurd h List.not_mem_nil⟩

theorem NoneAt.dropLast (h : NoneAt q ns) : NoneAt q ns.dropLast := by
  by_cases hns : ns = []
  · rwa [hns] at h ⊢
  · rw [← List.dropLast_concat_getLast hns] at h
    exact (noneAt_append.1 h).1

theorem NoneAt.tail (h : NoneAt q ns) : NoneAt q ns.tail := by
  cases ns with
  | nil => exact h
  | cons n ns => exact (noneAt_cons.1 h).2.2

theorem NoneAt.of_located (h : Located place ns) : NoneAt place ns := fun _ => path_ne_base h

/-! ## Siblings that change places -/

/-- How a comparison of siblings arranges entries: nowhere but at its place and below, and there by
moving some of them, but not all, if the siblings only change places. -/
structure Rearranges (place : Path) (old new : Forest Item) (d : Delta) : Prop where
  elsewhere : ∀ {q}, place ≠ q → NoneAt q new → d.arranging q = []
  moves : NoneAt place new → (old.map Rose.key).Perm (new.map Rose.key) →
    (∀ c ∈ d.arranging place, ∃ k before, c = .move place [k] before) ∧
      (d.arranging place).length ≤ old.length - 1

/-- The entry that is matched adds one move if it has siblings to pass. -/
theorem Rearranges.matched (us vs : Forest Item) {passed : Forest Item} {before : Option Key}
    (hsub : passed ≠ [] → l ++ r ≠ [])
    (hk : o.key = n.key) (hd : ∀ {q}, NoneAt q [n] → d.arranging q = [])
    (he : Rearranges place (l ++ r) (us ++ vs) e) :
    Rearranges place (l ++ o :: r) (us ++ n :: vs) (d ++ pass place passed o.key before ++ e) := by
  have hsplit : ∀ {q}, NoneAt q (us ++ n :: vs) → NoneAt q [n] ∧ NoneAt q (us ++ vs) := by
    intro q h
    obtain ⟨hus, hn⟩ := noneAt_append.1 h
    exact ⟨noneAt_one hn, noneAt_append.2 ⟨hus, (noneAt_cons.1 hn).2.2⟩⟩
  constructor
  · intro q hq h
    obtain ⟨hn, hrest⟩ := hsplit h
    rw [arranging_append, arranging_append, hd hn, arranging_pass_of_ne hq, he.elsewhere hq hrest]
    rfl
  · intro h hperm
    obtain ⟨hn, hrest⟩ := hsplit h
    have hperm' : ((l ++ r).map Rose.key).Perm ((us ++ vs).map Rose.key) := by
      have hold : ((l ++ o :: r).map Rose.key).Perm (n.key :: (l ++ r).map Rose.key) := by
        rw [← hk]
        exact List.perm_middle.map Rose.key
      have hnew : ((us ++ n :: vs).map Rose.key).Perm (n.key :: (us ++ vs).map Rose.key) :=
        List.perm_middle.map Rose.key
      exact (hold.symm.trans (hperm.trans hnew)).cons_inv
    obtain ⟨hmoves, hlength⟩ := he.moves hrest hperm'
    rw [arranging_append, arranging_append, hd hn, arranging_pass, List.nil_append]
    by_cases hp : passed = []
    · rw [if_pos hp, List.nil_append]
      refine ⟨hmoves, ?_⟩
      simp only [List.length_append, List.length_cons] at hlength ⊢
      omega
    · rw [if_neg hp]
      refine ⟨fun c hc => ?_, ?_⟩
      · rcases List.mem_cons.1 hc with rfl | hc
        · exact ⟨_, _, rfl⟩
        · exact hmoves c hc
      · have := List.length_pos_iff.2 (hsub hp)
        simp only [List.length_append, List.length_cons] at this hlength ⊢
        simp only [List.length_nil]
        omega

theorem rearranges_reconcile (place : Path) (old new : Forest Item) (next : Option Key) :
    Rearranges place old new (reconcile place old new next) := by
  refine reconcile_induct (R := fun _ n d => ∀ {q}, NoneAt q [n] → d.arranging q = [])
    (P := fun place old new _ d => Rearranges place old new d) ?_ ?_ ?_ ?_ ?_ place old new next
  · intro o n d hd q hq
    obtain ⟨hn, hcs, -⟩ := noneAt_cons.1 hq
    rw [arranging_append, arranging_updatesTo, hd.elsewhere hn hcs]; rfl
  · intro place old new next hends
    refine ⟨fun hq _ => arranging_exchange_of_ne hq, fun _ hperm => ?_⟩
    -- where one side is empty the other one is as well
    have hboth : old = [] ∧ new = [] := by
      rcases hends with rfl | rfl
      · exact ⟨rfl, by simpa using hperm⟩
      · exact ⟨by simpa using hperm, rfl⟩
    rw [arranging_exchange, if_pos hboth.1, if_pos hboth.2]
    exact ⟨fun _ h => absurd h List.not_mem_nil, Nat.zero_le _⟩
  · intro place l o r n ns next d e hk hd he
    exact Rearranges.matched [] ns (by simp +contextual) hk hd he
  · intro place l o r n ns next d e _ hk hd he
    exact Rearranges.matched ns [] (by simp +contextual) hk hd (by rwa [List.append_nil])
  · intro place o os n ns next hn _
    constructor
    · intro q hq h
      rw [arranging_append, arranging_exchange_of_ne hq,
        arranging_just_of_ne (c := .insert place _ _) hq]
      rfl
    · -- the first new sibling is not among the old ones
      intro _ hperm
      exact absurd (hperm.symm.subset (List.mem_cons_self ..)) (forall_key_ne.1 hn)

/-- A matched entry leaves the arrangement of its siblings alone. -/
theorem arranging_revise (h : NoneAt q [n]) : (revise o n).arranging q = [] := by
  obtain ⟨hn, hcs, -⟩ := noneAt_cons.1 h
  have hbelow : ∀ d, d = (if n.children = [] then exchange n.value.path o.children [] none
      else if o.children = [] then exchange n.value.path [] n.children none
      else reconcile n.value.path o.children n.children none) → d.arranging q = [] := by
    rintro d rfl
    split
    · exact arranging_exchange_of_ne hn
    · split
      · exact arranging_exchange_of_ne hn
      · exact (rearranges_reconcile ..).elsewhere hn hcs
  rw [revise, arranging_append, arranging_updatesTo, hbelow _ rfl]; rfl

/-! ## One step at a time -/

/-- The changes of a comparison of siblings that arrange the siblings themselves. -/
def arranged (place : Path) (old new : Forest Item) (next : Option Key) : List Change :=
  (reconcile place old new next).arranging place

theorem arranged_nil_left :
    arranged place [] new next = if new = [] then [] else [.insert place next new] := by
  unfold arranged
  rw [reconcile, arranging_exchange, if_pos rfl, List.nil_append]

theorem arranged_nil_right :
    arranged place old [] next = if old = [] then [] else [.delete place (old.map Rose.key)] := by
  cases old with
  | nil => exact arranged_nil_left
  | cons o os =>
    unfold arranged
    rw [reconcile, arranging_exchange]
    · simp
    · exact fun h => by cases h

theorem arranged_front (hn : NoneAt place (n :: ns)) (hk : o.key = n.key) :
    arranged place (o :: os) (n :: ns) next = arranged place os ns next := by
  unfold arranged
  rw [reconcile, if_pos hk, arranging_append, arranging_revise (noneAt_one hn)]
  rfl

/-- What a comparison does where the first keys differ and the last ones are `j` and `k`. -/
theorem arranged_ends (next : Option Key) {j k : Key} (hj : (old.map Rose.key).getLast? = some j)
    (hk : (new.map Rose.key).getLast? = some k)
    (hf : (old.map Rose.key).head? ≠ (new.map Rose.key).head?) (hn : NoneAt place new) :
    (j = k → arranged place old new next = arranged place old.dropLast new.dropLast (some k)) ∧
    (j ≠ k → (old.map Rose.key).head? = some k → arranged place old new next =
      .move place [k] next :: arranged place old.tail new.dropLast (some k)) ∧
    (j ≠ k → (old.map Rose.key).head? ≠ some k → (new.map Rose.key).head? = some j →
      arranged place old new next =
        .move place [j] (old.map Rose.key).head? :: arranged place old.dropLast new.tail next) := by
  cases old with
  | nil => cases hj
  | cons o os =>
  cases new with
  | nil => cases hk
  | cons n ns =>
  rw [List.getLast?_map, List.getLast?_eq_some_getLast (List.cons_ne_nil _ _)] at hj
  rw [List.getLast?_map, List.getLast?_eq_some_getLast (List.cons_ne_nil _ _)] at hk
  obtain rfl := Option.some.inj hj
  obtain rfl := Option.some.inj hk
  have hlast : NoneAt place [(n :: ns).getLast (List.cons_ne_nil n ns)] := by
    rw [← List.dropLast_concat_getLast (List.cons_ne_nil n ns)] at hn
    exact (noneAt_append.1 hn).2
  have hmove : ∀ k before, (Delta.just (.move place [k] before)).arranging place =
      [.move place [k] before] := fun k before => arranging_just (c := .move place [k] before) rfl
  simp only [List.map_cons, List.head?_cons, ne_eq, Option.some.injEq] at hf ⊢
  unfold arranged
  rw [reconcile, if_neg hf]
  refine ⟨fun h => ?_, fun h h' => ?_, fun h h' h'' => ?_⟩
  · rw [if_pos h, arranging_append, arranging_revise hlast]; rfl
  · rw [if_neg h, if_pos h', arranging_append, arranging_append, arranging_revise hlast, hmove, h']
    rfl
  · rw [if_neg h, if_neg h', if_pos h''.symm, arranging_append, arranging_append,
      arranging_revise (noneAt_one hn), hmove]
    rfl

/-! ## Siblings at the ends that are the same -/

variable {pre pre' post post' : Forest Item}

theorem arranged_prepend (hpre : pre.map Rose.key = pre'.map Rose.key)
    (hn : NoneAt place (pre' ++ new)) :
    arranged place (pre ++ old) (pre' ++ new) next = arranged place old new next := by
  induction pre generalizing pre' with
  | nil =>
    obtain rfl := List.map_eq_nil_iff.1 hpre.symm
    rfl
  | cons o pre ih =>
    obtain ⟨n, pre', rfl, hk, hpre⟩ := List.map_eq_cons_iff.1 hpre.symm
    exact (arranged_front hn hk.symm).trans (ih hpre.symm (noneAt_cons.1 hn).2.2)

theorem arranged_append (hpost : post.map Rose.key = post'.map Rose.key)
    (hn : NoneAt place (new ++ post'))
    (hf : ∀ k ∈ ((old ++ post).map Rose.key).head?, k ∉ ((new ++ post').map Rose.key).head?) :
    arranged place (old ++ post) (new ++ post') next =
      arranged place old new ((post'.head?.map Rose.key).or next) := by
  induction post using List.reverseRecOn generalizing post' next with
  | nil =>
    obtain rfl := List.map_eq_nil_iff.1 hpost.symm
    rw [List.append_nil, List.append_nil]; rfl
  | append_singleton post o ih =>
    rw [List.map_append] at hpost
    obtain ⟨post', last, rfl, hinit, hlast⟩ := List.map_eq_append_iff.1 hpost.symm
    obtain ⟨n, rfl, hk⟩ := List.map_eq_singleton_iff.1 hlast
    rw [← List.append_assoc, ← List.append_assoc] at hf ⊢
    rw [← List.append_assoc] at hn
    have hne : ((old ++ post ++ [o]).map Rose.key).head? ≠
        ((new ++ post' ++ [n]).map Rose.key).head? := by
      intro heq
      cases hfirst : ((old ++ post ++ [o]).map Rose.key).head? with
      | none => simp at hfirst
      | some k => exact hf k hfirst (heq ▸ hfirst)
    rw [(arranged_ends next (j := n.key) (k := n.key) (by simp [hk]) (by simp) hne hn).1 rfl,
      List.dropLast_concat, List.dropLast_concat, ih hinit.symm (noneAt_append.1 hn).1]
    · cases post' <;> rfl
    · intro k hs ht
      rw [Option.mem_def] at hs ht
      refine hf k ?_ ?_
      · rw [Option.mem_def, List.map_append, List.head?_append, hs]; rfl
      · rw [Option.mem_def, List.map_append, List.head?_append, ht]; rfl

/-- Siblings that are the same at either end leave those between them to be arranged. -/
theorem exists_arranged_eq (next : Option Key) {a b us vs : List Key}
    (hold : old.map Rose.key = a ++ (us ++ b))
    (hnew : new.map Rose.key = a ++ (vs ++ b)) (hn : NoneAt place new)
    (hf : ∀ k ∈ (us ++ b).head?, k ∉ (vs ++ b).head?) :
    ∃ old' new' next', old'.map Rose.key = us ∧ new'.map Rose.key = vs ∧ NoneAt place new' ∧
      arranged place old new next = arranged place old' new' next' := by
  obtain ⟨pre, old, rfl, hpre, hold⟩ := List.map_eq_append_iff.1 hold
  obtain ⟨old', post, rfl, hold', hpost⟩ := List.map_eq_append_iff.1 hold
  obtain ⟨pre', new, rfl, hpre', hnew⟩ := List.map_eq_append_iff.1 hnew
  obtain ⟨new', post', rfl, hnew', hpost'⟩ := List.map_eq_append_iff.1 hnew
  obtain ⟨-, hn'⟩ := noneAt_append.1 hn
  refine ⟨old', new', (post'.head?.map Rose.key).or next, hold', hnew', (noneAt_append.1 hn').1, ?_⟩
  rw [arranged_prepend (hpre.trans hpre'.symm) hn]
  exact arranged_append (hpost.trans hpost'.symm) hn' (by rwa [hold, hnew])

/-! ## Simple changes of the arrangement -/

theorem arranged_same (h : old.map Rose.key = new.map Rose.key) (hn : NoneAt place new) :
    arranged place old new next = [] := by
  have : arranged place (old ++ []) (new ++ []) next = arranged place [] [] next :=
    arranged_prepend h (by rwa [List.append_nil])
  rwa [List.append_nil, List.append_nil, arranged_nil_left, if_pos rfl] at this

theorem notMem_of_nodup {a b ks : List Key} {k : Key} (h : (a ++ (k :: ks ++ b)).Nodup) :
    k ∉ ks ∧ k ∉ b := by
  rw [List.cons_append] at h
  have := (List.nodup_cons.1 (List.perm_middle.nodup_iff.1 h)).1
  simp only [List.mem_append, not_or] at this
  exact this.2

/-- An entry goes behind siblings that it stood in front of. -/
theorem arranged_backwards (next : Option Key) {a b m : List Key} {k : Key} (hm : m ≠ [])
    (hold : old.map Rose.key = a ++ (k :: m ++ b)) (hnew : new.map Rose.key = a ++ (m ++ [k] ++ b))
    (ho : (old.map Rose.key).Nodup) (hn : NoneAt place new) :
    ∃ before, arranged place old new next = [.move place [k] before] := by
  have hk : k ∉ m := (notMem_of_nodup (hold ▸ ho)).1
  obtain ⟨j, m, rfl⟩ := List.exists_cons_of_ne_nil hm
  have hkj : k ≠ j := fun h => hk (h ▸ List.mem_cons_self ..)
  obtain ⟨old', new', next', hold', hnew', hn', heq⟩ :=
    exists_arranged_eq next hold hnew hn (by simpa using hkj.symm)
  obtain ⟨z, hz⟩ : ∃ z, (j :: m).getLast? = some z :=
    ⟨_, List.getLast?_eq_some_getLast (List.cons_ne_nil _ _)⟩
  have hzk : z ≠ k := fun h => hk (h ▸ List.mem_of_getLast? hz)
  have hstep := (arranged_ends next' (by rw [hold', List.getLast?_cons_cons, hz])
    (by rw [hnew', List.getLast?_concat]) (by simpa [hold', hnew'] using hkj) hn').2.1 hzk
      (by rw [hold']; rfl)
  refine ⟨next', ?_⟩
  rw [heq, hstep, arranged_same _ hn'.dropLast]
  rw [List.map_tail, List.map_dropLast, hold', hnew', List.dropLast_concat]; rfl

/-- An entry goes in front of siblings that it stood behind. If that is only one, this one is moved
instead. -/
theorem arranged_forwards (next : Option Key) {a b m : List Key} {k : Key} (hm : m ≠ [])
    (hold : old.map Rose.key = a ++ (m ++ [k] ++ b)) (hnew : new.map Rose.key = a ++ (k :: m ++ b))
    (ho : (old.map Rose.key).Nodup) (hd : (new.map Rose.key).Nodup) (hn : NoneAt place new) :
    ∃ j before, arranged place old new next = [.move place [j] before] := by
  match m, hm with
  | [j], _ =>
    obtain ⟨before, heq⟩ := arranged_backwards next (m := [k]) (List.cons_ne_nil k []) hold hnew ho hn
    exact ⟨j, before, heq⟩
  | j :: i :: m, _ =>
    have hk : k ∉ j :: i :: m := (notMem_of_nodup (hnew ▸ hd)).1
    have hj : j ∉ i :: m ++ [k] := (notMem_of_nodup (hold ▸ ho)).1
    have hjk : j ≠ k := fun h => hk (h ▸ List.mem_cons_self ..)
    obtain ⟨old', new', next', hold', hnew', hn', heq⟩ :=
      exists_arranged_eq next hold hnew hn (by simpa using hjk.symm)
    obtain ⟨z, hz⟩ : ∃ z, (i :: m).getLast? = some z :=
      ⟨_, List.getLast?_eq_some_getLast (List.cons_ne_nil i m)⟩
    have hzm := List.mem_of_getLast? hz
    have hzk : k ≠ z := fun h => hk (h ▸ List.mem_cons_of_mem j hzm)
    have hjz : j ≠ z := fun h => hj (h ▸ List.mem_append_left [k] hzm)
    have hstep := (arranged_ends next' (j := k) (k := z) (by rw [hold', List.getLast?_concat])
      (by rw [hnew', List.getLast?_cons_cons, List.getLast?_cons_cons, hz])
      (by simpa [hold', hnew'] using hjk) hn').2.2 hzk (by rw [hold']; simpa using hjz)
        (by rw [hnew']; rfl)
    refine ⟨k, some j, ?_⟩
    rw [heq, hstep, arranged_same _ hn'.tail, hold']
    · rfl
    · rw [List.map_tail, List.map_dropLast, hold', hnew', List.dropLast_concat]; rfl

/-- What the arranging changes `own` of siblings come to where the siblings change in a simple way.
Only their keys matter. -/
structure Sparing (place : Path) (old new : Forest Item) (own : List Change) : Prop where
  /-- Siblings that change places are moved, but not all of them. -/
  reordered : (old.map Rose.key).Perm (new.map Rose.key) →
    (∀ c ∈ own, ∃ k before, c = .move place [k] before) ∧ own.length ≤ old.length - 1
  /-- One sibling that goes elsewhere takes one move. -/
  relocated : ∀ {a b c d : List Key} {k : Key}, old.map Rose.key = a ++ k :: b →
    new.map Rose.key = c ++ k :: d → a ++ b = c ++ d → a ≠ c →
    ∃ j before, own = [.move place [j] before]
  /-- Newcomers that stand together take one insertion. -/
  widened : ∀ {a b block : List Key}, block ≠ [] → old.map Rose.key = a ++ b →
    new.map Rose.key = a ++ block ++ b →
    ∃ before entries, own = [.insert place before entries] ∧ entries.map Rose.key = block
  /-- Siblings that stand together and go take one deletion. -/
  narrowed : ∀ {a b block : List Key}, block ≠ [] → old.map Rose.key = a ++ block ++ b →
    new.map Rose.key = a ++ b → own = [.delete place block]
  /-- Where the siblings are the same nothing is arranged. -/
  same : old.map Rose.key = new.map Rose.key → own = []

/-- A comparison of siblings is sparing with changes of their arrangement. The changes for the
siblings themselves are told from those for the entries below by the place that they name, which is
where the siblings are kept, and not where any of them or of the entries below stands. -/
theorem sparing_reconcile (ho : (old.map Rose.key).Nodup) (hn : (new.map Rose.key).Nodup)
    (h : ∀ i ∈ valuesAll new, i.path ≠ place) (next : Option Key) :
    Sparing place old new ((reconcile place old new next).arranging place) where
  reordered := (rearranges_reconcile place old new next).moves h
  relocated := by
    intro a b c d k hold hnew hrest hne
    rcases List.append_eq_append_iff.1 hrest with ⟨m, rfl, rfl⟩ | ⟨m, rfl, rfl⟩
    · have hm : m ≠ [] := by rintro rfl; exact hne (List.append_nil a).symm
      obtain ⟨before, heq⟩ := arranged_backwards next hm hold (by simpa using hnew) ho h
      exact ⟨k, before, heq⟩
    · have hm : m ≠ [] := by rintro rfl; exact hne (List.append_nil c)
      exact arranged_forwards next hm (by simpa using hold) hnew ho hn h
  widened := by
    intro a b block hblock hold hnew
    obtain ⟨k, ks, rfl⟩ := List.exists_cons_of_ne_nil hblock
    rw [List.append_assoc] at hnew
    have hk : k ∉ b := (notMem_of_nodup (hnew ▸ hn)).2
    obtain ⟨old', new', next', hold', hnew', hn', heq⟩ :=
      exists_arranged_eq next (show _ = a ++ ([] ++ b) from hold) hnew h fun j hj hj' =>
        hk (Option.some.inj hj' ▸ List.mem_of_head? hj)
    obtain rfl := List.map_eq_nil_iff.1 hold'
    refine ⟨next', new', heq.trans ?_, hnew'⟩
    rw [arranged_nil_left, if_neg]
    rintro rfl
    cases hnew'
  narrowed := by
    intro a b block hblock hold hnew
    obtain ⟨k, ks, rfl⟩ := List.exists_cons_of_ne_nil hblock
    rw [List.append_assoc] at hold
    have hk : k ∉ b := (notMem_of_nodup (hold ▸ ho)).2
    obtain ⟨old', new', next', hold', hnew', hn', heq⟩ :=
      exists_arranged_eq next hold (show _ = a ++ ([] ++ b) from hnew) h fun j hj hj' =>
        hk (Option.some.inj hj ▸ List.mem_of_head? hj')
    obtain rfl := List.map_eq_nil_iff.1 hnew'
    refine heq.trans ?_
    rw [arranged_nil_right, if_neg, hold']
    rintro rfl
    cases hold'
  same h' := arranged_same h' h

/-- The last of three entries goes to the front. -/
theorem sparing_reconcile_rotated :
    let entry (name : String) : Rose Item :=
      node (.fresh ⟨.function, name⟩ "" (.ofLines 0 1) (.ofLines 0 0)) []
    let old := ofForest [entry "a", entry "b", entry "c"]
    let new := ofForest [entry "c", entry "a", entry "b"]
    (old.map Rose.key).Nodup ∧ (new.map Rose.key).Nodup ∧ (∀ i ∈ valuesAll new, i.path ≠ []) ∧
      Sparing [] old new ((reconcile [] old new none).arranging []) ∧
      ∃ k before, (reconcile [] old new none).arranging [] = [.move [] [k] before] :=
  have sparing :=
    sparing_reconcile (by decide) (by decide) (NoneAt.of_located (located_ofForest _)) none
  ⟨by decide, by decide, NoneAt.of_located (located_ofForest _), sparing,
    sparing.relocated (a := [⟨.function, "a"⟩, ⟨.function, "b"⟩]) (c := []) rfl rfl rfl (by decide)⟩

end Outline

end SymbolOutline
