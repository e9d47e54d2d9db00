import Mathlib.Data.List.TakeWhile
import SymbolOutline.Proofs.Reconcile

/-
Which entries a comparison matches. Of the new siblings those in front of the first newcomer find
their old counterparts wherever these stand. Behind it a new sibling finds its counterpart only if
it and all new siblings behind it come off the ends of the old ones, last one first (`Meets`). An
entry survives if it and all entries above it are matched (`Survives`), and what a comparison keeps is
the expansion of the entries that survive (`mem_kept_changesTo`).
-/

namespace SymbolOutline

/-! ## Keys that are matched -/

/-- Keys are taken one after the other from either end of what is left of a list, and one of them is
`k`. -/
def ComesOff (k : Key) : List Key → List Key → Prop
  | _, [] => False
  | left, n :: ns => (left.head? = some n ∨ left.getLast? = some n) ∧
      (k = n ∨ ComesOff k (left.erase n) ns)

/-- The new keys in front of the first newcomer. -/
def lead (old new : List Key) : List Key := new.takeWhile fun k => k ∈ old

/-- A new key is matched with an old one: it is in front of the first newcomer, or it and all new
keys behind it come off the ends of the old ones that are left then, last one first. -/
def Meets (old new : List Key) (k : Key) : Prop :=
  k ∈ lead old new ∨ ComesOff k (old.filter fun j => j ∉ lead old new) new.reverse

instance decidableComesOff (k : Key) : ∀ left ns, Decidable (ComesOff k left ns)
  | _, [] => inferInstanceAs (Decidable False)
  | left, n :: ns =>
    have := decidableComesOff k (left.erase n) ns
    inferInstanceAs (Decidable (_ ∧ (_ ∨ _)))

instance (old new : List Key) (k : Key) : Decidable (Meets old new k) :=
  inferInstanceAs (Decidable (_ ∨ _))

section

variable {old new left l r ns : List Key} {k o : Key}

theorem ComesOff.mem (h : ComesOff k left ns) : k ∈ ns := by
  induction ns generalizing left with
  | nil => exact h.elim
  | cons n ns ih =>
    rcases h.2 with rfl | h
    · exact List.mem_cons_self ..
    · exact List.mem_cons_of_mem _ (ih h)

/-- A key that is not there cannot be taken, and so it makes no difference that it would be next. -/
theorem comesOff_concat (h : o ∉ left) : ComesOff k left (ns ++ [o]) ↔ ComesOff k left ns := by
  induction ns generalizing left with
  | nil =>
    refine ⟨fun hk => ?_, False.elim⟩
    rcases hk.1 with hend | hend
    · exact h (List.mem_of_head? hend)
    · exact h (List.mem_of_getLast? hend)
  | cons n ns ih =>
    have herase : o ∉ left.erase n := fun hmem => h (List.mem_of_mem_erase hmem)
    rw [List.cons_append, ComesOff, ComesOff, ih herase]

theorem Meets.mem (h : Meets old new k) : k ∈ new := by
  rcases h with h | h
  · exact (List.takeWhile_sublist _).subset h
  · exact List.mem_reverse.1 h.mem

theorem meets_of_subset (h : ∀ j ∈ new, j ∈ old) : Meets old new k ↔ k ∈ new := by
  have hlead : lead old new = new :=
    List.takeWhile_eq_self_iff.2 fun j hj => by simpa using h j hj
  exact ⟨Meets.mem, fun hk => .inl (hlead.symm ▸ hk)⟩

theorem lead_congr {old' : List Key} (h : ∀ k ∈ new, k ∈ old ↔ k ∈ old') :
    lead old new = lead old' new := by
  induction new with
  | nil => rfl
  | cons n new ih =>
    have hn := h n (List.mem_cons_self ..)
    unfold lead at ih ⊢
    rw [List.takeWhile_cons, List.takeWhile_cons, ih fun k hk => h k (List.mem_cons_of_mem _ hk)]
    simp only [hn]

/-- Where the first new key is a newcomer and the last one is at neither end of the old ones, nothing
is matched. -/
theorem not_meets (hfirst : ∀ k ∈ new.head?, k ∉ old)
    (hlast : ∀ k ∈ new.getLast?, k ∉ old.head? ∧ k ∉ old.getLast?) : ¬ Meets old new k := by
  have hlead : lead old new = [] := by
    cases new with
    | nil => rfl
    | cons n new => simp [lead, hfirst n rfl]
  have hleft : (old.filter fun j => j ∉ ([] : List Key)) = old := by simp
  unfold Meets
  rw [hlead, hleft]
  rintro (h | h)
  · cases h
  · cases hrev : new.reverse with
    | nil =>
      rw [hrev] at h
      exact h
    | cons m ms =>
      rw [hrev] at h
      obtain ⟨hhead, hend⟩ := hlast m (by rw [← List.head?_reverse, hrev]; rfl)
      exact h.1.elim hhead hend

theorem filter_not_mem_cons {ks : List Key} (h : o ∉ l) :
    (l.filter fun j => j ∉ o :: ks) = l.filter fun j => j ∉ ks := by
  refine List.filter_congr fun j hj => ?_
  have hne : j ≠ o := fun he => h (he ▸ hj)
  simp [hne]

theorem mem_middle_iff (h : o ∉ ns) : ∀ j ∈ ns, j ∈ l ++ o :: r ↔ j ∈ l ++ r := by
  intro j hj
  have hne : j ≠ o := fun he => h (he ▸ hj)
  simp [hne]

/-- The first new key is an old one. -/
theorem meets_front (ho : (l ++ o :: r).Nodup) (hn : (o :: ns).Nodup) :
    Meets (l ++ o :: r) (o :: ns) k ↔ k = o ∨ Meets (l ++ r) ns k := by
  have hlr : o ∉ l ++ r := (List.nodup_cons.1 (List.perm_middle.nodup_iff.1 ho)).1
  have hlead : lead (l ++ o :: r) (o :: ns) = o :: lead (l ++ r) ns := by
    rw [← lead_congr (mem_middle_iff (List.nodup_cons.1 hn).1)]
    exact List.takeWhile_cons_of_pos (by simp)
  have hleft : ((l ++ o :: r).filter fun j => j ∉ o :: lead (l ++ r) ns) =
      (l ++ r).filter fun j => j ∉ lead (l ++ r) ns := by
    rw [← filter_not_mem_cons hlr, List.filter_append, List.filter_append,
      List.filter_cons_of_neg (by simp)]
  have hrest : o ∉ (l ++ r).filter fun j => j ∉ lead (l ++ r) ns :=
    fun hmem => hlr (List.mem_filter.1 hmem).1
  unfold Meets
  rw [hlead, hleft, List.reverse_cons, comesOff_concat hrest, List.mem_cons, or_assoc]

/-- The last new key is at an end of the old ones. -/
theorem meets_back (h : l = [] ∨ r = []) (ho : (l ++ o :: r).Nodup) (hn : (ns ++ [o]).Nodup) :
    Meets (l ++ o :: r) (ns ++ [o]) k ↔ k = o ∨ Meets (l ++ r) ns k := by
  have hons : o ∉ ns := fun hmem =>
    (List.nodup_append.1 hn).2.2 o hmem o (List.mem_singleton_self o) rfl
  have hol : o ∉ l := fun hmem => (List.nodup_append.1 ho).2.2 o hmem o (List.mem_cons_self ..) rfl
  have hmem := mem_middle_iff (l := l) (r := r) hons
  by_cases hall : ∀ j ∈ ns, j ∈ l ++ r
  · -- there is no newcomer, so all are matched
    have hall' : ∀ j ∈ ns ++ [o], j ∈ l ++ o :: r := by
      intro j hj
      rcases List.mem_append.1 hj with hj | hj
      · exact (hmem j hj).2 (hall j hj)
      · simp [List.mem_singleton.1 hj]
    rw [meets_of_subset hall', meets_of_subset hall, List.mem_append, List.mem_singleton, or_comm]
  · -- the first newcomer stands in front of the last key, which is still there to be taken
    have hlead : lead (l ++ o :: r) (ns ++ [o]) = lead (l ++ r) ns := by
      rw [← lead_congr hmem]
      unfold lead
      rw [List.takeWhile_append, if_neg]
      intro hlen
      have hself := (List.takeWhile_sublist _).eq_of_length hlen
      refine hall fun j hj => (hmem j hj).1 ?_
      simpa using List.takeWhile_eq_self_iff.1 hself j hj
    have holead : o ∉ lead (l ++ r) ns := fun hmem => hons ((List.takeWhile_sublist _).subset hmem)
    obtain ⟨f, hf⟩ : ∃ f : Key → Bool, f = fun j => decide (j ∉ lead (l ++ r) ns) := ⟨_, rfl⟩
    have hend : (l.filter f ++ o :: r.filter f).head? = some o ∨
        (l.filter f ++ o :: r.filter f).getLast? = some o := by
      rcases h with rfl | rfl
      · exact .inl rfl
      · exact .inr (by simp)
    have herase : (l.filter f ++ o :: r.filter f).erase o = (l ++ r).filter f := by
      rw [List.erase_append_right _ fun hmem => hol (List.mem_filter.1 hmem).1,
        List.erase_cons_head, List.filter_append]
    unfold Meets
    rw [hlead, ← hf, List.filter_append, List.filter_cons_of_pos (by rw [hf]; simpa using holead),
      List.reverse_append]
    show _ ∨ _ ∧ (k = o ∨ ComesOff k (List.erase _ o) ns.reverse) ↔ _
    rw [herase, and_iff_right hend, or_left_comm]

end

namespace Outline

open Forest Rose

/-! ## Entries that survive -/

/-- Every step of a path leads to an old entry and a new one that are matched. -/
def Survives : Forest Item → Forest Item → Path → Prop
  | _, _, [] => True
  | old, new, k :: p => Meets (old.map Rose.key) (new.map Rose.key) k ∧
      ∃ s ∈ child? old k, ∃ t ∈ child? new k, Survives s.children t.children p

/-- A path leads to an entry that survives, which is expanded or not. -/
def Lends (old new : Forest Item) (p : Path) (b : Bool) : Prop :=
  Survives old new p ∧ ∃ s ∈ find? old p, s.value.expanded = b

/-- The same from a matched entry on. -/
def LendsFrom (o n : Rose Item) (p : Path) (b : Bool) : Prop :=
  p = [] ∧ o.value.expanded = b ∨ Lends o.children n.children p b

variable {old new l r us vs : Forest Item} {o n : Rose Item} {p : Path} {b : Bool} {k : Key}

/-! ## Siblings that are matched -/

theorem not_meets_of_nil (h : old = [] ∨ new = []) :
    ¬ Meets (old.map Rose.key) (new.map Rose.key) k := by
  rcases h with rfl | rfl
  · exact not_meets (by simp) (by simp)
  · exact not_meets (by simp) (by simp)

/-- The first new sibling is new, and the last one is at neither end of the old ones. -/
theorem not_meets_of_fresh {os ns : Forest Item} (hfirst : ∀ s ∈ o :: os, s.key ≠ n.key)
    (hlast : ∀ m ∈ (n :: ns).getLast?, o.key ≠ m.key ∧ ∀ s ∈ (o :: os).getLast?, s.key ≠ m.key) :
    ¬ Meets ((o :: os).map Rose.key) ((n :: ns).map Rose.key) k := by
  refine not_meets ?_ ?_
  · rintro j hj hmem
    obtain rfl : n.key = j := Option.some.inj hj
    obtain ⟨s, hs, hkey⟩ := List.mem_map.1 hmem
    exact hfirst s hs hkey
  · intro j hj
    rw [List.getLast?_map] at hj ⊢
    obtain ⟨m, hm, rfl⟩ := Option.map_eq_some_iff.1 hj
    obtain ⟨hhead, hend⟩ := hlast m hm
    refine ⟨fun h => hhead (Option.some.inj h), fun h => ?_⟩
    obtain ⟨s, hs, hkey⟩ := Option.map_eq_some_iff.1 h
    exact hend s hs hkey

theorem meets_map_front {ns : Forest Item} (hk : o.key = n.key)
    (ho : ((l ++ o :: r).map Rose.key).Nodup) (hn : ((n :: ns).map Rose.key).Nodup) :
    Meets ((l ++ o :: r).map Rose.key) ((n :: ns).map Rose.key) k ↔
      k = n.key ∨ Meets ((l ++ r).map Rose.key) (ns.map Rose.key) k := by
  simp only [List.map_append, List.map_cons, hk] at ho hn ⊢
  exact meets_front ho hn

theorem meets_map_back {ns : Forest Item} (h : l = [] ∨ r = []) (hk : o.key = n.key)
    (ho : ((l ++ o :: r).map Rose.key).Nodup) (hn : ((ns ++ [n]).map Rose.key).Nodup) :
    Meets ((l ++ o :: r).map Rose.key) ((ns ++ [n]).map Rose.key) k ↔
      k = n.key ∨ Meets ((l ++ r).map Rose.key) (ns.map Rose.key) k := by
  simp only [List.map_append, List.map_cons, List.map_nil, hk] at ho hn ⊢
  exact meets_back (by simpa using h) ho hn

/-! ## What survives, from one step to the next -/

theorem not_lends_nil : ¬ Lends old new [] b := by
  rintro ⟨-, s, hs, -⟩
  cases hs

theorem lends_cons : Lends old new (k :: p) b ↔ Meets (old.map Rose.key) (new.map Rose.key) k ∧
    ∃ s ∈ child? old k, ∃ t ∈ child? new k, LendsFrom s t p b := by
  unfold Lends LendsFrom
  rw [Survives, find?_cons]
  cases child? old k with
  | none => simp
  | some s =>
    cases child? new k with
    | none => simp
    | some t =>
      cases p with
      | nil => simp [Survives, not_lends_nil]
      | cons j p => simp [Lends, and_assoc]

/-- What is lent where two entries are matched and the siblings beside them are compared. -/
theorem lends_matched (hk : o.key = n.key) (ho : Distinct (l ++ o :: r))
    (hn : Distinct (us ++ n :: vs))
    (hmeets : ∀ k, Meets ((l ++ o :: r).map Rose.key) ((us ++ n :: vs).map Rose.key) k ↔
      k = n.key ∨ Meets ((l ++ r).map Rose.key) ((us ++ vs).map Rose.key) k) :
    Lends (l ++ o :: r) (us ++ n :: vs) p b ↔
      (∃ q, p = n.key :: q ∧ LendsFrom o n q b) ∨ Lends (l ++ r) (us ++ vs) p b := by
  have hbeside : ∀ s ∈ l ++ r, s.key ≠ o.key := key_ne_of_distinct ho
  have hus : ∀ s ∈ us, s.key ≠ n.key := fun s hs =>
    (distinct_append.1 hn).2.2 s hs n (List.mem_cons_self ..)
  cases p with
  | nil => simp [not_lends_nil]
  | cons k p =>
    rw [lends_cons, hmeets, child?_middle hus,
      child?_middle fun s hs => hbeside s (List.mem_append_left _ hs), hk]
    by_cases hkn : k = n.key
    · -- no old sibling beside the matched one has its key
      have hnone : child? (l ++ r) n.key = none := by
        unfold child?
        rw [List.find?_eq_none]
        exact fun s hs => by simpa [← hk] using hbeside s hs
      subst hkn
      simp [lends_cons, hnone]
    · simp [hkn, lends_cons]

/-! ## What a comparison keeps -/

/-- A comparison of siblings keeps the expansion of the entries that survive. -/
def Keeps (place : Path) (old new : Forest Item) (d : Delta) : Prop :=
  Located place new → Distinct old → Distinct new →
    ∀ p b, (p, b) ∈ d.kept ↔ ∃ q, p = place ++ q ∧ Lends old new q b

/-- The same of a comparison of two entries. -/
def KeepsFrom (o n : Rose Item) (d : Delta) : Prop :=
  Located n.value.path n.children → Distinct o.children → Distinct n.children →
    ∀ p b, (p, b) ∈ d.kept ↔ ∃ q, p = n.value.path ++ q ∧ LendsFrom o n q b

theorem Keeps.of_not_meets {place : Path} {d : Delta} (hd : d.kept = [])
    (h : ∀ k, ¬ Meets (old.map Rose.key) (new.map Rose.key) k) : Keeps place old new d := by
  intro _ _ _ p b
  rw [hd]
  refine ⟨fun hmem => absurd hmem List.not_mem_nil, ?_⟩
  rintro ⟨q, -, hq⟩
  cases q with
  | nil => exact absurd hq not_lends_nil
  | cons k q => exact absurd (lends_cons.1 hq).1 (h k)

theorem Keeps.matched {place : Path} {d m e : Delta} (hm : m.kept = []) (hk : o.key = n.key)
    (hmeets : ((l ++ o :: r).map Rose.key).Nodup → ((us ++ n :: vs).map Rose.key).Nodup →
      ∀ k, Meets ((l ++ o :: r).map Rose.key) ((us ++ n :: vs).map Rose.key) k ↔
        k = n.key ∨ Meets ((l ++ r).map Rose.key) ((us ++ vs).map Rose.key) k)
    (hd : KeepsFrom o n d) (he : Keeps place (l ++ r) (us ++ vs) e) :
    Keeps place (l ++ o :: r) (us ++ n :: vs) (d ++ m ++ e) := by
  intro hloc ho hn p b
  have hlends : ∀ q, Lends (l ++ o :: r) (us ++ n :: vs) q b ↔ _ := fun q =>
    lends_matched hk ho hn (hmeets (nodup_keys ho) (nodup_keys hn))
  obtain ⟨j, cs⟩ := n
  obtain ⟨hlocu, hlocv⟩ := located_append.1 hloc
  obtain ⟨hj, hlocc, hlocv⟩ := located_cons.1 hlocv
  obtain ⟨hno, hol⟩ := distinct_remove ho
  obtain ⟨hnn, hnl⟩ := distinct_remove hn
  rw [← hj] at hlocc
  rw [Delta.kept_append, Delta.kept_append, hm, List.append_nil, List.mem_append,
    hd hlocc hno hnn, he (located_append.2 ⟨hlocu, hlocv⟩) hol hnl]
  simp only [hlends]
  constructor
  · rintro (⟨q, rfl, hq⟩ | ⟨q, rfl, hq⟩)
    · exact ⟨j.key :: q, by rw [value_node, hj, List.append_assoc]; rfl, .inl ⟨q, rfl, hq⟩⟩
    · exact ⟨q, rfl, .inr hq⟩
  · rintro ⟨q, rfl, ⟨q, rfl, hq⟩ | hq⟩
    · exact .inl ⟨q, by rw [value_node, hj, List.append_assoc]; rfl, hq⟩
    · exact .inr ⟨q, rfl, hq⟩

theorem KeepsFrom.of_keeps {d : Delta} (h : Keeps n.value.path o.children n.children d) :
    KeepsFrom o n (⟨o.value.updatesTo n.value, [(n.value.path, o.value.expanded)]⟩ ++ d) := by
  intro hloc ho hn p b
  rw [Delta.kept_append, List.mem_append, h hloc ho hn, List.mem_singleton, Prod.mk.injEq]
  unfold LendsFrom
  constructor
  · rintro (⟨rfl, rfl⟩ | ⟨q, rfl, hq⟩)
    · exact ⟨[], (List.append_nil _).symm, .inl ⟨rfl, rfl⟩⟩
    · exact ⟨q, rfl, .inr hq⟩
  · rintro ⟨q, rfl, ⟨rfl, rfl⟩ | hq⟩
    · exact .inl ⟨List.append_nil _, rfl⟩
    · exact .inr ⟨q, rfl, hq⟩

theorem keeps_reconcile (place : Path) (old new : Forest Item) (next : Option Key) :
    Keeps place old new (reconcile place old new next) := by
  refine reconcile_induct (R := fun o n d => KeepsFrom o n d)
    (P := fun place old new _ d => Keeps place old new d) ?_ ?_ ?_ ?_ ?_ place old new next
  · exact fun o n d => .of_keeps
  · exact fun place old new next h => .of_not_meets (kept_exchange ..) fun k => not_meets_of_nil h
  · intro place l o r n ns next d e hk hd he
    show Keeps place _ ([] ++ n :: ns) _
    exact Keeps.matched (kept_pass ..) hk (fun ho hn k => meets_map_front hk ho hn) hd he
  · intro place l o r n ns next d e hends hk hd he
    exact Keeps.matched (kept_pass ..) hk
      (fun ho hn k => by simpa using meets_map_back hends hk ho hn) hd (by rwa [List.append_nil])
  · intro place o os n ns next hfirst hlast
    refine .of_not_meets ?_ fun k => not_meets_of_fresh hfirst hlast
    rw [Delta.kept_append, kept_exchange]; rfl

/-- A comparison keeps the expansion of the entries that survive, and of no others. -/
theorem mem_kept_changesTo {old new : Outline} (ho : Distinct old) (hn : new.WellKeyed) (p : Path)
    (b : Bool) : (p, b) ∈ (old.changesTo new).kept ↔
      Survives old new p ∧ ∃ i, old.item? p = some i ∧ i.expanded = b := by
  have := keeps_reconcile [] old new none hn.located ho hn.distinct p b
  simp only [List.nil_append, exists_eq_left'] at this
  rw [changesTo, this]
  unfold Lends item?
  simp

end Outline

end SymbolOutline
