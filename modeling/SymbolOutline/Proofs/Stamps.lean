import Mathlib.Algebra.Group.Nat.Defs
import Mathlib.Data.List.Nodup
import Mathlib.Order.Nat
import SymbolOutline.Bookmark.Stamped

/-
A shelf that is kept with stamps does what a shelf does (`run_as_list`), as long as the clock does not
start anew.

The documents of the one stand in the order of their URIs, those of the other in the order in which their
bookmarks were set. Stamps say how the one order is got from the other (`Keeps`): a new stamp is above all
others, so the document just set comes first, and the lowest stamp is that of the last one, which is the
one to go.
-/

namespace SymbolOutline

namespace Filed

variable {e f : Filed} {es rs : List Filed} {uri : String}

/-! ## In the order of URIs -/

/-- Documents stand in the order of their URIs, none of them twice. -/
def Sorted (es : List Filed) : Prop := es.Pairwise fun e f => e.uri < f.uri

/-- The documents with other URIs. -/
def others (uri : String) (es : List Filed) : List Filed := es.filter fun e => e.uri ≠ uri

theorem Sorted.nodup (h : Sorted es) : (es.map Filed.uri).Nodup := by
  refine List.pairwise_map.2 (h.imp ?_)
  intro e f hlt heq
  exact String.lt_irrefl f.uri (heq ▸ hlt)

theorem others_eq_self (h : ∀ e ∈ es, e.uri ≠ uri) : others uri es = es :=
  List.filter_eq_self.2 fun e he => by simpa using h e he

theorem others_cons (e : Filed) (es : List Filed) (uri : String) :
    others uri (e :: es) = if e.uri = uri then others uri es else e :: others uri es := by
  unfold others
  split
  · next h => exact List.filter_cons_of_neg (by simpa using h)
  · next h => exact List.filter_cons_of_pos (by simpa using h)

theorem others_concat (h : ((es ++ [e]).map Filed.uri).Nodup) : others e.uri (es ++ [e]) = es := by
  have hout : ∀ f ∈ es, f.uri ≠ e.uri := by
    rw [List.map_append, List.nodup_append] at h
    exact fun f hf => h.2.2 _ (List.mem_map_of_mem hf) _ (List.mem_singleton_self e.uri)
  unfold others
  rw [List.filter_append, List.filter_cons_of_neg (by simp), List.filter_nil, List.append_nil]
  exact others_eq_self hout

theorem erase_eq_others (h : (es.map Filed.uri).Nodup) : erase uri es = others uri es := by
  induction es with
  | nil => rfl
  | cons e es ih =>
    obtain ⟨hout, hnodup⟩ := List.nodup_cons.1 h
    unfold erase at *
    rw [others_cons]
    split
    · next heq =>
      subst heq
      rw [List.eraseP_cons_of_pos (by simp), others_eq_self]
      rintro f hf heq
      exact hout (List.mem_map.2 ⟨f, hf, heq⟩)
    · next hne => rw [List.eraseP_cons_of_neg (by simpa using hne), ih hnodup]

/-- A document that is put in its place comes in place of the one with its URI. -/
theorem perm_insert (e : Filed) (h : Sorted es) : (insert e es).Perm (e :: others e.uri es) := by
  induction es with
  | nil => exact .refl _
  | cons f fs ih =>
    obtain ⟨hf, hfs⟩ := List.pairwise_cons.1 h
    rw [insert, others_cons]
    by_cases hlt : e.uri < f.uri
    · have hne : f.uri ≠ e.uri := fun heq => String.lt_irrefl _ (heq ▸ hlt)
      have hself : others e.uri fs = fs := others_eq_self fun g hg heq =>
        String.lt_irrefl _ (String.lt_trans hlt (heq ▸ hf g hg))
      rw [if_pos hlt, if_neg hne, hself]
    · by_cases heq : e.uri = f.uri
      · have hself : others e.uri fs = fs := others_eq_self fun g hg hge =>
          String.lt_irrefl _ ((hge.trans heq) ▸ hf g hg)
        rw [if_neg hlt, if_pos heq, if_pos heq.symm, hself]
      · rw [if_neg hlt, if_neg heq, if_neg (Ne.symm heq)]
        exact ((ih hfs).cons f).trans (.swap ..)

theorem sorted_insert (e : Filed) (h : Sorted es) : Sorted (insert e es) := by
  induction es with
  | nil => exact List.pairwise_singleton _ _
  | cons f fs ih =>
    obtain ⟨hf, hfs⟩ := List.pairwise_cons.1 h
    rw [insert]
    by_cases hlt : e.uri < f.uri
    · rw [if_pos hlt]
      exact List.pairwise_cons.2
        ⟨List.forall_mem_cons.2 ⟨hlt, fun g hg => String.lt_trans hlt (hf g hg)⟩, h⟩
    · by_cases heq : e.uri = f.uri
      · rw [if_neg hlt, if_pos heq]
        exact List.pairwise_cons.2 ⟨fun g hg => heq ▸ hf g hg, hfs⟩
      · rw [if_neg hlt, if_neg heq]
        have hgt : f.uri < e.uri := by
          by_contra hge
          exact heq (String.le_antisymm (String.not_lt.1 hge) (String.not_lt.1 hlt))
        refine List.pairwise_cons.2 ⟨fun g hg => ?_, ih hfs⟩
        rcases List.mem_cons.1 ((perm_insert e hfs).mem_iff.1 hg) with rfl | hg
        · exact hgt
        · exact hf g (List.mem_filter.1 hg).1

/-! ## In the order of stamps -/

/-- Documents stand in the order of their stamps, the highest first. -/
def Recent (rs : List Filed) : Prop := rs.Pairwise fun e f => f.stamp < e.stamp

theorem oldest?_eq_none : oldest? es = none ↔ es = [] := by
  cases es with
  | nil => exact iff_of_true rfl rfl
  | cons e es =>
    refine iff_of_false ?_ (List.cons_ne_nil e es)
    rw [oldest?]
    cases oldest? es with
    | none => exact Option.some_ne_none e
    | some f =>
      show (if e.stamp ≤ f.stamp then some e else some f) ≠ none
      split
      · exact Option.some_ne_none e
      · exact Option.some_ne_none f

theorem le_of_oldest? (h : oldest? es = some e) : ∀ f ∈ es, e.stamp ≤ f.stamp := by
  induction es generalizing e with
  | nil => nofun
  | cons g es ih =>
    rw [oldest?] at h
    cases ho : oldest? es with
    | none =>
      obtain rfl := oldest?_eq_none.1 ho
      obtain rfl : g = e := by simpa [oldest?] using h
      intro f hf
      rw [List.mem_singleton.1 hf]
      exact UInt64.le_refl _
    | some f =>
      simp only [ho] at h
      split at h
      · next hle =>
        obtain rfl := Option.some.inj h
        exact List.forall_mem_cons.2
          ⟨UInt64.le_refl _, fun k hk => UInt64.le_trans hle (ih ho k hk)⟩
      · next hlt =>
        obtain rfl := Option.some.inj h
        refine List.forall_mem_cons.2 ⟨?_, ih ho⟩
        exact (UInt64.le_total _ _).resolve_right hlt

/-- The oldest document is the last one in the order of stamps. -/
theorem oldest?_eq_some (h : Recent (rs ++ [e])) (hp : (rs ++ [e]).Perm es) : oldest? es = some e := by
  cases ho : oldest? es with
  | none =>
    rw [oldest?_eq_none.1 ho] at hp
    exact absurd hp.eq_nil (by simp)
  | some f =>
    have hle := le_of_oldest? ho e (hp.mem_iff.1 (by simp))
    rcases List.mem_append.1 (hp.mem_iff.2 (mem_of_oldest? ho)) with hf | hf
    · have hlt := (List.pairwise_append.1 h).2.2 f hf e (List.mem_singleton_self e)
      exact absurd hle (by rwa [UInt64.not_le])
    · rw [List.mem_singleton.1 hf]

theorem fit_sublist (capacity : Nat) (es : List Filed) : (fit capacity es).Sublist es := by
  fun_induction fit capacity es with
  | case1 es hle => exact .refl es
  | case2 es hgt ho => exact .refl es
  | case3 es hgt e ho ih => exact ih.trans List.eraseP_sublist

/-- The documents that stay are those at the front in the order of stamps. -/
theorem perm_fit (capacity : Nat) (h : Sorted es) (hr : Recent rs) (hp : rs.Perm es) :
    (rs.take capacity).Perm (fit capacity es) := by
  fun_induction fit capacity es generalizing rs with
  | case1 es hle => rwa [List.take_of_length_le (hp.length_eq ▸ hle)]
  | case2 es hgt ho =>
    rw [oldest?_eq_none.1 ho] at hgt
    exact absurd (Nat.zero_le _) hgt
  | case3 es hgt e ho ih =>
    rcases List.eq_nil_or_concat rs with rfl | ⟨front, last, rfl⟩
    · rw [hp.symm.eq_nil] at hgt
      exact absurd (Nat.zero_le _) hgt
    · rw [List.concat_eq_append] at *
      obtain rfl : last = e := Option.some.inj ((oldest?_eq_some hr hp).symm.trans ho)
      have hlong : capacity ≤ front.length := by
        have hlen := hp.length_eq
        simp only [List.length_append, List.length_singleton] at hlen
        omega
      have hfront : front.Perm (erase last.uri es) := by
        rw [erase_eq_others h.nodup, ← others_concat ((hp.map Filed.uri).nodup_iff.2 h.nodup)]
        exact hp.filter _
      rw [List.take_append_of_le_length hlong]
      exact ih (h.sublist List.eraseP_sublist) (List.pairwise_append.1 hr).1 hfront

/-! ## What a shelf has of them -/

/-- A document as it is on a shelf. -/
def entry (e : Filed) : String × Forest Item := (e.uri, e.bookmarks)

theorem filter_map_entry (uri : String) (rs : List Filed) :
    ((rs.map entry).filter fun e => e.1 ≠ uri) = (others uri rs).map entry :=
  List.filter_map

/-- Which document has a URI does not depend on the order they are in. -/
theorem find?_eq_of_perm (h : (es.map Filed.uri).Nodup) (hp : rs.Perm es) (uri : String) :
    (rs.find? fun e => e.uri = uri) = es.find? fun e => e.uri = uri := by
  cases hr : rs.find? fun e => e.uri = uri with
  | none =>
    symm
    rw [List.find?_eq_none] at hr ⊢
    exact fun e he => hr e (hp.mem_iff.2 he)
  | some e =>
    have he : e ∈ es := hp.mem_iff.1 (List.mem_of_find?_eq_some hr)
    have heq : e.uri = uri := by simpa using List.find?_some hr
    cases hes : es.find? fun e => e.uri = uri with
    | none => exact absurd heq (by simpa using List.find?_eq_none.1 hes e he)
    | some f =>
      have hf : f.uri = uri := by simpa using List.find?_some hes
      rw [List.inj_on_of_nodup_map h he (List.mem_of_find?_eq_some hes) (heq.trans hf.symm)]

theorem Recent.eq_of_stamp_eq (h : Recent rs) (he : e ∈ rs) (hf : f ∈ rs)
    (heq : e.stamp = f.stamp) : e = f := by
  have hnodup : (rs.map Filed.stamp).Nodup :=
    List.pairwise_map.2 (h.imp fun hlt => (UInt64.ne_of_lt hlt).symm)
  exact List.inj_on_of_nodup_map hnodup he hf heq

/-- Sorting by stamps gives the order of stamps. -/
theorem mergeSort_stamps (hr : Recent rs) (hp : rs.Perm es) :
    ((es.map fun e => (e.stamp, e.uri)).mergeSort fun a b => b.1 ≤ a.1) =
      rs.map fun e => (e.stamp, e.uri) := by
  have hsorted : ((es.map fun e => (e.stamp, e.uri)).mergeSort fun a b => b.1 ≤ a.1).Pairwise
      fun a b => decide (b.1 ≤ a.1) = true := by
    refine List.pairwise_mergeSort (fun a b c hab hbc => ?_) (fun a b => ?_) _
    · simpa using UInt64.le_trans (of_decide_eq_true hbc) (of_decide_eq_true hab)
    · simpa using UInt64.le_total b.1 a.1
  have hrecent : (rs.map fun e => (e.stamp, e.uri)).Pairwise fun a b => decide (b.1 ≤ a.1) = true :=
    List.pairwise_map.2 (hr.imp fun hlt => by simpa using UInt64.le_of_lt hlt)
  refine List.Perm.eq_of_pairwise ?_ hsorted hrecent
    ((List.mergeSort_perm _ _).trans (hp.symm.map _))
  intro a b ha hb hab hba
  obtain ⟨e, he, rfl⟩ := List.mem_map.1 (List.mem_mergeSort.1 ha)
  obtain ⟨f, hf, rfl⟩ := List.mem_map.1 hb
  have heq : e.stamp = f.stamp := UInt64.le_antisymm (by simpa using hba) (by simpa using hab)
  rw [hr.eq_of_stamp_eq (hp.mem_iff.2 he) hf heq]

end Filed

namespace StampedShelf

open Filed

variable {s : StampedShelf} {r : Shelf}

/-- A shelf with stamps keeps what is on a shelf: the documents of the one in the order of their stamps
are those of the other. No stamp is above the clock. -/
structure Keeps (s : StampedShelf) (r : Shelf) : Prop where
  capacity : s.capacity = r.capacity
  sorted : Sorted s.entries
  clocked : ∀ e ∈ s.entries, e.stamp ≤ s.clock
  fits : s.entries.length ≤ s.capacity
  recent : ∃ rs : List Filed, rs.Perm s.entries ∧ Recent rs ∧ r.entries = rs.map entry

theorem keeps_empty (capacity : Nat) : (empty capacity).Keeps (.empty capacity) :=
  ⟨rfl, .nil, nofun, Nat.zero_le _, [], .refl _, .nil, rfl⟩

namespace Keeps

/-! ## Reading -/

theorem size_eq (h : s.Keeps r) : s.size = r.size := by
  obtain ⟨rs, hp, -, hr⟩ := h.recent
  unfold size Shelf.size
  rw [hr, List.length_map, hp.length_eq]

theorem uris_eq (h : s.Keeps r) : s.uris = r.uris := by
  obtain ⟨rs, hp, hrecent, hr⟩ := h.recent
  unfold uris Shelf.uris
  rw [mergeSort_stamps hrecent hp, hr, List.map_map, List.map_map]
  rfl

theorem get?_eq (h : s.Keeps r) (uri : String) : s.get? uri = r.get? uri := by
  obtain ⟨rs, hp, -, hr⟩ := h.recent
  unfold get? Shelf.get?
  rw [hr, List.find?_map, Option.map_map, ← find?_eq_of_perm h.sorted.nodup hp uri]
  rfl

theorem nodup_uris (h : s.Keeps r) : r.uris.Nodup := by
  obtain ⟨rs, hp, -, hr⟩ := h.recent
  unfold Shelf.uris
  rw [hr, List.map_map]
  exact (hp.map Filed.uri).nodup_iff.2 h.sorted.nodup

/-! ## Writing -/

theorem erase (h : s.Keeps r) (uri : String) : (s.erase uri).Keeps (r.erase uri) := by
  obtain ⟨rs, hp, hrecent, hr⟩ := h.recent
  have hsub : (Filed.erase uri s.entries).Sublist s.entries := List.eraseP_sublist
  refine ⟨h.capacity, h.sorted.sublist hsub, fun e he => h.clocked e (hsub.subset he),
    hsub.length_le.trans h.fits, others uri rs, ?_, hrecent.filter _, ?_⟩
  · show (others uri rs).Perm (Filed.erase uri s.entries)
    rw [erase_eq_others h.sorted.nodup]
    exact hp.filter _
  · show (r.entries.filter fun e => e.1 ≠ uri) = _
    rw [hr, filter_map_entry]

/-- The next stamp is above all others, so the document that gets it comes first. -/
theorem recent_next (h : s.Keeps r) (hclock : s.clock.toNat + 1 < 2 ^ 64) {rs : List Filed}
    (hp : rs.Perm s.entries) (hrecent : Recent rs) (uri : String) (b : Forest Item) :
    Recent (⟨uri, s.clock + 1, b⟩ :: others uri rs) := by
  refine List.pairwise_cons.2 ⟨fun f hf => ?_, hrecent.filter _⟩
  have hle : f.stamp ≤ s.clock := h.clocked f (hp.mem_iff.1 (List.mem_filter.1 hf).1)
  rw [UInt64.le_iff_toNat_le] at hle
  rw [UInt64.lt_iff_toNat_lt, UInt64.toNat_add, UInt64.toNat_one, Nat.mod_eq_of_lt hclock]
  exact Nat.lt_succ_of_le hle

theorem set (h : s.Keeps r) (hclock : s.clock.toNat + 1 < 2 ^ 64) (uri : String) (b : Forest Item) :
    (s.set uri b).Keeps (r.set uri b) := by
  unfold StampedShelf.set Shelf.set
  by_cases hb : b = []
  · rw [if_pos hb, if_pos hb]
    exact h.erase uri
  · rw [if_neg hb, if_neg hb]
    obtain ⟨rs, hp, hrecent, hr⟩ := h.recent
    let new : Filed := ⟨uri, s.clock + 1, b⟩
    have hfirst : Recent (new :: others uri rs) := h.recent_next hclock hp hrecent uri b
    have hinsert : (new :: others uri rs).Perm (new.insert s.entries) :=
      ((hp.filter _).cons new).trans (perm_insert new h.sorted).symm
    have hsorted := sorted_insert new h.sorted
    have hfit := perm_fit s.capacity hsorted hfirst hinsert
    have hsub := fit_sublist s.capacity (new.insert s.entries)
    -- what fits in the order of stamps is what is left when the oldest ones have gone
    refine ⟨h.capacity, hsorted.sublist hsub, fun e he => ?_, ?_, _, hfit,
      hfirst.sublist (List.take_sublist _ _), ?_⟩
    · rcases List.mem_cons.1 (hinsert.mem_iff.2 (hsub.subset he)) with rfl | hmem
      · exact UInt64.le_refl _
      · exact UInt64.le_of_lt ((List.pairwise_cons.1 hfirst).1 e hmem)
    · show (fit s.capacity (new.insert s.entries)).length ≤ s.capacity
      rw [← hfit.length_eq]
      exact List.length_take_le _ _
    · show List.take r.capacity ((uri, b) :: r.entries.filter fun e => e.1 ≠ uri) = _
      rw [hr, filter_map_entry, ← h.capacity, List.map_take]
      rfl

end Keeps

end StampedShelf

/-! ## Call after call -/

namespace Shelf

/-- A call on a shelf. -/
inductive Call where
  | set (uri : String) (bookmarks : Forest Item)
  | get (uri : String)
  | remove (uri : String)

/-- Makes a call: the answer, and the shelf then. A document is removed with its bookmarks in answer. -/
def call (s : Shelf) : Call → Option (Forest Item) × Shelf
  | .set uri b => (none, s.set uri b)
  | .get uri => (s.get? uri, s)
  | .remove uri => (s.get? uri, s.erase uri)

/-- Makes calls, one after the other: the answers, and the shelf then. -/
def run (s : Shelf) : List Call → List (Option (Forest Item)) × Shelf
  | [] => ([], s)
  | c :: cs => ((s.call c).1 :: ((s.call c).2.run cs).1, ((s.call c).2.run cs).2)

theorem capacity_call (s : Shelf) (c : Call) : (s.call c).2.capacity = s.capacity := by
  cases c with
  | set uri b => exact s.capacity_set uri b
  | get uri => rfl
  | remove uri => rfl

theorem capacity_run (s : Shelf) (cs : List Call) : (s.run cs).2.capacity = s.capacity := by
  induction cs generalizing s with
  | nil => rfl
  | cons c cs ih => exact (ih _).trans (s.capacity_call c)

end Shelf

namespace StampedShelf

variable {s : StampedShelf} {r : Shelf}

/-- Makes a call: the answer, and the shelf then. -/
def call (s : StampedShelf) : Shelf.Call → Option (Forest Item) × StampedShelf
  | .set uri b => (none, s.set uri b)
  | .get uri => (s.get? uri, s)
  | .remove uri => s.remove uri

/-- Makes calls, one after the other: the answers, and the shelf then. -/
def run (s : StampedShelf) : List Shelf.Call → List (Option (Forest Item)) × StampedShelf
  | [] => ([], s)
  | c :: cs => ((s.call c).1 :: ((s.call c).2.run cs).1, ((s.call c).2.run cs).2)

theorem Keeps.call (h : s.Keeps r) (hclock : s.clock.toNat + 1 < 2 ^ 64) (c : Shelf.Call) :
    (s.call c).1 = (r.call c).1 ∧ (s.call c).2.Keeps (r.call c).2 := by
  cases c with
  | set uri b => exact ⟨rfl, h.set hclock uri b⟩
  | get uri => exact ⟨h.get?_eq uri, h⟩
  | remove uri => exact ⟨h.get?_eq uri, h.erase uri⟩

theorem toNat_clock_call_le (s : StampedShelf) (c : Shelf.Call) :
    (s.call c).2.clock.toNat ≤ s.clock.toNat + 1 := by
  cases c with
  | set uri b =>
    show (s.set uri b).clock.toNat ≤ _
    unfold set
    split
    · exact Nat.le_succ _
    · exact (UInt64.toNat_add ..).trans_le (Nat.mod_le _ _)
  | get uri => exact Nat.le_succ _
  | remove uri => exact Nat.le_succ _

theorem Keeps.run {cs : List Shelf.Call} (h : s.Keeps r)
    (hclock : s.clock.toNat + cs.length < 2 ^ 64) :
    (s.run cs).1 = (r.run cs).1 ∧ (s.run cs).2.Keeps (r.run cs).2 := by
  induction cs generalizing s r with
  | nil => exact ⟨rfl, h⟩
  | cons c cs ih =>
    rw [List.length_cons] at hclock
    obtain ⟨hanswer, hkeeps⟩ := h.call (by omega) c
    have hle := s.toNat_clock_call_le c
    obtain ⟨hanswers, hlast⟩ := ih hkeeps (by omega)
    exact ⟨congrArg₂ List.cons hanswer hanswers, hlast⟩

/-- A shelf with stamps answers as a shelf does, and then has the same documents in the same order, as
long as there are stamps for all calls. -/
theorem run_as_list (capacity : Nat) (cs : List Shelf.Call) (h : cs.length < 2 ^ 64) :
    let s := (empty capacity).run cs
    let r := (Shelf.empty capacity).run cs
    s.1 = r.1 ∧ s.2.uris = r.2.uris ∧ (∀ uri, s.2.get? uri = r.2.get? uri) ∧ s.2.size = r.2.size ∧
      r.2.uris.Nodup ∧ r.2.capacity = max capacity 1 ∧ s.2.size ≤ max capacity 1 := by
  intro s r
  have hclock : (empty capacity).clock.toNat + cs.length < 2 ^ 64 := by
    show 0 + cs.length < 2 ^ 64
    omega
  obtain ⟨hanswers, hkeeps⟩ := (keeps_empty capacity).run hclock
  have hcapacity : r.2.capacity = max capacity 1 := Shelf.capacity_run _ cs
  refine ⟨hanswers, hkeeps.uris_eq, hkeeps.get?_eq, hkeeps.size_eq, hkeeps.nodup_uris, hcapacity, ?_⟩
  exact (hkeeps.fits.trans_eq hkeeps.capacity).trans_eq hcapacity

/-- There is room for two documents. The first one gets new bookmarks, so the second one has to go for the
third one; then a document has no bookmarks to set, and one is removed twice. -/
theorem run_as_list_crowded :
    let marks (name : String) : Forest Item :=
      [.node (Item.fresh ⟨.region, name⟩ "" (.ofLines 0 1) (.ofLines 0 0)) []]
    let cs : List Shelf.Call := [
      .set "file:a" (marks "old"), .set "file:b" (marks "b"), .set "file:a" (marks "new"),
      .set "file:c" (marks "c"), .get "file:b", .get "file:a", .set "file:c" [],
      .remove "file:a", .remove "file:a", .set "file:b" (marks "b"), .set "file:a" (marks "old")]
    let s := (empty 2).run cs
    cs.length < 2 ^ 64 ∧
      s.1 = [none, none, none, none, none, some (marks "new"), none, some (marks "new"), none, none,
        none] ∧
      s.2.uris = ["file:a", "file:b"] ∧ s.2.get? "file:a" = some (marks "old") ∧ s.2.size ≤ 2 := by
  intro marks cs s
  have hlength : cs.length < 2 ^ 64 := by decide
  obtain ⟨hanswers, huris, hget, -, -, -, hsize⟩ := run_as_list 2 cs hlength
  exact ⟨hlength, hanswers.trans (by decide), huris.trans (by decide),
    (hget "file:a").trans (by decide), hsize⟩

end StampedShelf

end SymbolOutline
