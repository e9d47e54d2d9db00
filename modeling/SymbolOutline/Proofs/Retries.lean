import Mathlib.Tactic.IntervalCases
import SymbolOutline.Fetch

/-
How a fetch goes. An attempt either ends the fetch (`Stops`) or finds that there are no symbols yet
(`Unready`). A fetch gets through the attempts that find none one by one, asking once and waiting once
for each (`fetch_after_unready`), so the first other attempt decides how it ends, and the bound on the
attempts does if there is no other.

The provider and the world around it are anything: `worldAfter` follows the world through the attempts,
and all that a fetch says of itself is told of these worlds.
-/

namespace SymbolOutline

namespace Delay

/-- A delay so many times over. -/
def scaled (d : Delay) (n : Nat) : Delay := ⟨d.nanoseconds * n⟩

theorem times?_eq (d : Delay) (n : Nat) :
    d.times? n = if (d.scaled n).seconds < 2 ^ 64 then some (d.scaled n) else none := rfl

theorem times?_eq_some {d : Delay} {n : Nat} (h : (d.times? n).isSome) : d.times? n = some (d.scaled n) := by
  rw [times?_eq] at h ⊢
  split at h
  next hfits => exact if_pos hfits
  next => cases h

end Delay

namespace RetryPolicy

theorem attempts_pos (p : RetryPolicy) : 0 < p.attempts :=
  Nat.lt_of_lt_of_le Nat.one_pos (Nat.le_max_right ..)

/-- The waits between the attempts are all such as can be waited. -/
def Fits (p : RetryPolicy) : Prop := ∀ n, 0 < n → n < p.attempts → (p.delay? n).isSome

theorem fits_standard : standard.Fits := by
  intro n _ hn
  have hfits : (standard.baseDelay.scaled n).seconds < 2 ^ 64 := by
    change n < 10 at hn
    change 300000000 * n / 1000000000 < 2 ^ 64
    omega
  rw [delay?, Delay.times?_eq, if_pos hfits]
  rfl

end RetryPolicy

namespace Source

variable {World : Type} {source : Source World} {policy : RetryPolicy} {document : Document}
  {debug : Bool} {world : World}

/-! ## One attempt -/

/-- An attempt in a world ends a fetch: with which outcome, after how many calls, and in which world. -/
inductive Stops (source : Source World) (world : World) :
    Except FetchError FetchOutcome → (calls : Nat) → World → Prop
  | stale (h : source.isWanted world = false) : Stops source world (.ok .superseded) 0 world
  | failed {cause : String} (h : source.isWanted world = true)
      (ha : (source.ask world).1 = .error cause) :
      Stops source world (.error (.provider cause)) 1 (source.ask world).2
  | found {symbols : Forest Symbol} (h : source.isWanted world = true)
      (ha : (source.ask world).1 = .ok symbols) (hs : symbols ≠ []) :
      Stops source world (.ok (.symbols symbols)) 1 (source.ask world).2

/-- An attempt in a world finds that the symbols are wanted and that there are none yet. -/
def Unready (source : Source World) (world : World) : Prop :=
  source.isWanted world = true ∧ (source.ask world).1 = .ok []

theorem stops_or_unready (source : Source World) (world : World) :
    (∃ outcome calls w, source.Stops world outcome calls w) ∨ source.Unready world := by
  cases h : source.isWanted world with
  | false => exact .inl ⟨_, _, _, .stale h⟩
  | true =>
    cases ha : (source.ask world).1 with
    | error cause => exact .inl ⟨_, _, _, .failed h ha⟩
    | ok symbols =>
      rcases eq_or_ne symbols [] with rfl | hs
      · exact .inr ⟨h, ha⟩
      · exact .inl ⟨_, _, _, .found h ha hs⟩

theorem Stops.ne_symbols_nil {outcome : Except FetchError FetchOutcome} {calls : Nat} {w : World}
    (h : source.Stops world outcome calls w) : outcome ≠ .ok (.symbols []) := by
  rintro rfl
  cases h with
  | found _ _ hs => exact hs rfl

theorem Stops.fetchFrom {outcome : Except FetchError FetchOutcome} {calls : Nat} {w : World}
    (h : source.Stops world outcome calls w) (attempt left : Nat) :
    source.fetchFrom policy document debug attempt (left + 1) world = ⟨outcome, calls, [], w⟩ := by
  cases h with
  | stale h => simp only [Source.fetchFrom, h, Bool.not_false, if_true]
  | failed h ha =>
    simp only [Source.fetchFrom, h, Bool.not_true, Bool.false_eq_true, if_false]
    rw [← Prod.mk.eta (p := source.ask world), ha]
  | @found symbols h ha hs =>
    obtain ⟨t, ts, rfl⟩ := List.exists_cons_of_ne_nil hs
    simp only [Source.fetchFrom, h, Bool.not_true, Bool.false_eq_true, if_false]
    rw [← Prod.mk.eta (p := source.ask world), ha]

/-- The last attempt makes no one wait. -/
theorem Unready.fetchFrom_last (h : source.Unready world) (attempt : Nat) :
    source.fetchFrom policy document debug attempt 1 world =
      ⟨if debug then .error (.unavailable document policy.attempts) else .ok .empty, 1, [],
        (source.ask world).2⟩ := by
  simp only [Source.fetchFrom, h.1, Bool.not_true, Bool.false_eq_true, if_false]
  rw [← Prod.mk.eta (p := source.ask world), h.2]
  rfl

theorem Unready.fetchFrom_next (h : source.Unready world) {attempt left : Nat} {delay : Delay}
    (hd : policy.delay? attempt = some delay) :
    source.fetchFrom policy document debug attempt (left + 2) world =
      let later := source.fetchFrom policy document debug (attempt + 1) (left + 1)
        (source.wait delay (source.ask world).2)
      { later with calls := later.calls + 1, delays := delay :: later.delays } := by
  rw [Source.fetchFrom]
  simp only [h.1, Bool.not_true, Bool.false_eq_true, if_false]
  rw [← Prod.mk.eta (p := source.ask world), h.2]
  simp only [Nat.add_eq_zero_iff, Nat.one_ne_zero, and_false, if_false, hd]

/-! ## One attempt after the other -/

/-- The world after as many attempts, each followed by a wait, the next of which is longer by the base
delay. -/
def worldAfter (source : Source World) (base : Delay) (world : World) : Nat → World
  | 0 => world
  | n + 1 => source.wait (base.scaled (n + 1)) (source.ask (source.worldAfter base world n)).2

/-- The waits after as many attempts. -/
def waits (base : Delay) (n : Nat) : List Delay := (List.range n).map fun k => base.scaled (k + 1)

theorem fetch_after_unready (hp : policy.Fits) {n m : Nat} (hn : n + (m + 1) = policy.attempts)
    (hu : ∀ k < n, source.Unready (source.worldAfter policy.baseDelay world k)) :
    source.fetch policy document debug world =
      let later := source.fetchFrom policy document debug (n + 1) (m + 1)
        (source.worldAfter policy.baseDelay world n)
      { later with calls := n + later.calls, delays := waits policy.baseDelay n ++ later.delays } := by
  induction n generalizing m with
  | zero =>
    rw [Nat.zero_add] at hn
    simp only [fetch, ← hn, Nat.zero_add, waits, List.range_zero, List.map_nil, List.nil_append, worldAfter]
  | succ n ih =>
    have hdelay : policy.delay? (n + 1) = some (policy.baseDelay.scaled (n + 1)) :=
      Delay.times?_eq_some (hp (n + 1) n.succ_pos (by omega))
    rw [ih (m := m + 1) (by omega) fun k hk => hu k (Nat.lt_succ_of_lt hk),
      (hu n n.lt_succ_self).fetchFrom_next hdelay]
    simp only [worldAfter, waits, List.range_succ, List.map_append, List.map_cons, List.map_nil,
      List.append_assoc, List.cons_append, List.nil_append, Fetched.mk.injEq, true_and, and_true]
    omega

/-- The first attempt that stops a fetch decides how it ends. -/
theorem Stops.fetch (hp : policy.Fits) {n : Nat} (hn : n < policy.attempts)
    (hu : ∀ k < n, source.Unready (source.worldAfter policy.baseDelay world k))
    {outcome : Except FetchError FetchOutcome} {calls : Nat} {w : World}
    (h : source.Stops (source.worldAfter policy.baseDelay world n) outcome calls w) :
    source.fetch policy document debug world = ⟨outcome, n + calls, waits policy.baseDelay n, w⟩ := by
  obtain ⟨m, hm⟩ := Nat.exists_eq_add_of_lt hn
  rw [fetch_after_unready (m := m) hp hm.symm hu, h.fetchFrom]
  simp only [List.append_nil]

theorem fetch_of_forall_unready (hp : policy.Fits)
    (hu : ∀ k < policy.attempts, source.Unready (source.worldAfter policy.baseDelay world k)) :
    source.fetch policy document debug world =
      ⟨if debug then .error (.unavailable document policy.attempts) else .ok .empty, policy.attempts,
        waits policy.baseDelay (policy.attempts - 1),
        (source.ask (source.worldAfter policy.baseDelay world (policy.attempts - 1))).2⟩ := by
  have hlast : policy.attempts - 1 + (0 + 1) = policy.attempts := Nat.sub_add_cancel policy.attempts_pos
  have hlt : policy.attempts - 1 < policy.attempts := Nat.sub_lt policy.attempts_pos Nat.one_pos
  rw [fetch_after_unready hp hlast fun k hk => hu k (hk.trans hlt), (hu _ hlt).fetchFrom_last]
  simp only [List.append_nil, Nat.sub_add_cancel policy.attempts_pos]

/-- A fetch ends with the first attempt that stops it, whatever the provider answers and whenever the answer
ceases to be wanted. Each attempt before it was one call and one wait, and it is itself a call unless the
symbols are no longer wanted. If no attempt stops it, all are made, with a wait after each but the last. So
it never ends with symbols that are none. -/
theorem fetch_stops (source : Source World) (policy : RetryPolicy) (document : Document) (debug : Bool)
    (world : World) (hp : policy.Fits) :
    let after := source.worldAfter policy.baseDelay world
    let fetched := source.fetch policy document debug world
    ((∃ n outcome calls w, n < policy.attempts ∧ (∀ k < n, source.Unready (after k)) ∧
          source.Stops (after n) outcome calls w ∧
          fetched = ⟨outcome, n + calls, waits policy.baseDelay n, w⟩) ∨
        (∀ k < policy.attempts, source.Unready (after k)) ∧
          fetched = ⟨if debug then .error (.unavailable document policy.attempts) else .ok .empty,
            policy.attempts, waits policy.baseDelay (policy.attempts - 1),
            (source.ask (after (policy.attempts - 1))).2⟩) ∧
      fetched.outcome ≠ .ok (.symbols []) := by
  intro after fetched
  by_cases hs : ∃ n < policy.attempts, ¬ source.Unready (after n)
  · classical
    obtain ⟨hlt, hnot⟩ := Nat.find_spec hs
    have hfirst : ∀ k < Nat.find hs, source.Unready (after k) := fun k hk =>
      not_not.1 fun h => Nat.find_min hs hk ⟨hk.trans hlt, h⟩
    obtain ⟨outcome, calls, w, hstops⟩ := (source.stops_or_unready (after (Nat.find hs))).resolve_right hnot
    have hfetched : fetched = ⟨outcome, _, _, w⟩ := hstops.fetch hp hlt hfirst
    refine ⟨.inl ⟨_, outcome, calls, w, hlt, hfirst, hstops, hfetched⟩, ?_⟩
    rw [hfetched]
    exact hstops.ne_symbols_nil
  · have hall : ∀ k < policy.attempts, source.Unready (after k) := fun k hk =>
      not_not.1 fun h => hs ⟨k, hk, h⟩
    have hfetched : fetched = ⟨_, _, _, _⟩ := fetch_of_forall_unready hp hall
    refine ⟨.inr ⟨hall, hfetched⟩, ?_⟩
    rw [hfetched]
    cases debug <;> exact fun h => by cases h

/-- A provider that is ready when it is asked for the third time. -/
theorem fetch_stops_third :
    let f : Rose Symbol := .node ⟨⟨.function, "f"⟩, none, .ofLines 0 1, .ofLines 0 1⟩ []
    let source : Source Nat :=
      ⟨fun asked => (.ok (if asked = 2 then [f] else []), asked + 1), fun _ asked => asked, fun _ => true⟩
    let policy := RetryPolicy.standard
    let after := source.worldAfter policy.baseDelay 0
    let fetched := source.fetch policy ⟨"file:a"⟩ false 0
    policy.Fits ∧ ¬ source.Unready (after 2) ∧
      (∃ n outcome calls w, n < policy.attempts ∧ (∀ k < n, source.Unready (after k)) ∧
        source.Stops (after n) outcome calls w ∧
        fetched = ⟨outcome, n + calls, waits policy.baseDelay n, w⟩) ∧
      fetched = ⟨.ok (.symbols [f]), 3, [.ofMilliseconds 300, .ofMilliseconds 600], 3⟩ ∧
      fetched.outcome ≠ .ok (.symbols []) := by
  intro f source policy after fetched
  have hp : policy.Fits := RetryPolicy.fits_standard
  have hready : ¬ source.Unready (after 2) := fun h => by cases h.2
  have hfound : source.Stops (after 2) (.ok (.symbols [f])) 1 3 := .found rfl rfl (List.cons_ne_nil _ _)
  have hunready : ∀ k < 2, source.Unready (after k) := fun k hk => by interval_cases k <;> exact ⟨rfl, rfl⟩
  have hwaits : waits policy.baseDelay 2 = [.ofMilliseconds 300, .ofMilliseconds 600] := by decide
  obtain ⟨hcourse, hne⟩ := fetch_stops source policy ⟨"file:a"⟩ false 0 hp
  exact ⟨hp, hready, hcourse.resolve_right fun h => hready (h.1 2 (by decide)),
    hwaits ▸ hfound.fetch hp (by decide) hunready, hne⟩

end Source

end SymbolOutline
