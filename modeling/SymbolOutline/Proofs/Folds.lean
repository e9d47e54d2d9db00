import SymbolOutline.Proofs.Insertion
import SymbolOutline.Proofs.Matching
import SymbolOutline.Proofs.Nesting
import SymbolOutline.Proofs.Replay
import SymbolOutline.Proofs.Run

/-
What stays expanded when a new outline takes the place of the old one. An entry that survives the
comparison is expanded as it was, and every other entry is collapsed (`expanded_completeRebuild`).
-/

namespace SymbolOutline

open Forest Rose Outline

/-- Where all entries for the path of an item say the same, that is what becomes of it. -/
theorem Item.expanded_lend {es : List (Path × Bool)} {i : Item} {b : Bool}
    (h : ∀ c, (i.path, c) ∈ es → c = b) :
    (i.lend es).expanded = if (i.path, b) ∈ es then b else i.expanded := by
  induction es generalizing i with
  | nil => rfl
  | cons e es ih =>
    obtain ⟨p, c⟩ := e
    have hes : ∀ c, (i.path, c) ∈ es → c = b := fun c hc => h c (List.mem_cons_of_mem _ hc)
    rw [lend_cons]
    by_cases hp : i.path = p
    · obtain rfl := hp
      obtain rfl := h c (List.mem_cons_self ..)
      have hset := ih (i := { i with expanded := c }) hes
      rw [ite_self] at hset
      rw [if_pos rfl, if_pos (List.mem_cons_self ..)]
      exact hset
    · rw [if_neg hp, ih hes]
      simp [hp]

namespace Outline

/-- Lending changes nothing but what is expanded. -/
theorem unlit_lendExpansion (es : List (Path × Bool)) {o : Outline} (h : o.WellKeyed) :
    (lendExpansion es o).unlit = o.unlit := by
  rw [lendExpansion_eq h, unlit, unlit, mapAll_mapAll]
  refine mapAll_congr fun i _ => ?_
  obtain ⟨b, hb⟩ := Item.lend_eq es i
  rw [Function.comp_apply, hb]
  rfl

/-- Of the items of a new outline, all collapsed, those that survive get the expansion of the old
ones. -/
theorem expanded_lendExpansion {old new : Outline} (ho : Distinct old) (hn : new.WellKeyed)
    (hz : ∀ i ∈ new.items, i.expanded = false) {p : Path} {i j : Item} (hi : old.item? p = some i)
    (hj : (lendExpansion (old.changesTo new).expansion new).item? p = some j) :
    j.expanded = i.expanded ↔ (i.expanded = true → Survives old new p) := by
  rw [lendExpansion_eq hn, item?_mapAll (Item.lend_key _)] at hj
  obtain ⟨n, hnp, rfl⟩ := Option.map_eq_some_iff.1 hj
  obtain ⟨hmem, rfl⟩ := hn.item?_eq_some.1 hnp
  have hkept : ∀ b, (n.path, b) ∈ (old.changesTo new).kept ↔
      Survives old new n.path ∧ i.expanded = b := by
    intro b
    rw [mem_kept_changesTo ho hn, hi]
    simp
  have hlend := Item.expanded_lend (i := n) fun c hc => ((hkept c).1 hc).2.symm
  rw [hz n hmem] at hlend
  rw [Delta.expansion, Expansion.lend_ofEntries, hlend]
  by_cases hs : Survives old new n.path
  · rw [if_pos ((hkept _).2 ⟨hs, rfl⟩)]
    simp [hs]
  · rw [if_neg fun hmem => hs ((hkept _).1 hmem).1]
    cases i.expanded <;> simp [hs]

end Outline

namespace Session

variable {s : Session}

/-- A new outline has the entries that the symbols and the text give it, and of these an entry that the
old outline had is expanded as it was, exactly if it was collapsed or survives the comparison of the
two outlines. -/
theorem expanded_completeRebuild {old : Outline} (ho : s.outline = some old) (hd : Distinct old)
    {t : Ticket} (hc : s.IsCurrent t) {symbols : Forest Symbol} {text : Option TextLines}
    (hne : s.outlineOf symbols text ≠ []) (hdn : Distinct (s.outlineOf symbols text)) :
    ∃ new, (s.completeRebuild t symbols text).2.outline = some new ∧
      new.bare = (s.outlineOf symbols text).bare ∧
      ∀ p i j, old.item? p = some i → new.item? p = some j →
        (j.expanded = i.expanded ↔
          (i.expanded = true → Survives old (s.outlineOf symbols text) p)) := by
  rcases s.completeRebuild_cases t symbols text with ⟨h, -⟩ | ⟨-, h, -⟩ | ⟨-, -, hs⟩
  · exact absurd hc h
  · exact absurd h hne
  · obtain ⟨shelf, inboxes, hinstall⟩ := install_spec { s with marks := s.scan text } t.document
      (s.outlineOf symbols text)
    have hlent : { s with marks := s.scan text }.lent (s.outlineOf symbols text) =
        lendExpansion (old.changesTo (s.outlineOf symbols text)).expansion
          (s.outlineOf symbols text) := by
      simp [lent, ho]
    have hk : (s.outlineOf symbols text).WellKeyed := ⟨hdn, located_ofForest _⟩
    -- diagnostics do not expand or collapse anything
    have huntally := Badges.untally_apply .none
      ({ s with marks := s.scan text }.lent (s.outlineOf symbols text))
      ({ s with marks := s.scan text }.rememberedFor t.document)
    rw [hs, hinstall]
    refine ⟨_, rfl, ?_, fun p i j hi hj => ?_⟩
    · rw [Badges.bare_apply, hlent, bare, unlit_lendExpansion _ hk]
      rfl
    · have hitem := congrArg (fun o : Outline => o.item? p) huntally
      simp only [untally, item?_mapAll (f := Item.untally) fun _ => rfl] at hitem
      rw [hj, hlent] at hitem
      obtain ⟨m, hm, hjm⟩ := Option.map_eq_some_iff.1 hitem.symm
      have hexpanded : m.untally.expanded = j.untally.expanded := congrArg Item.expanded hjm
      rw [show j.expanded = m.expanded from hexpanded.symm]
      refine expanded_lendExpansion hd hk (fun n hn => ?_) hi hm
      obtain ⟨key, detail, range, selection, q, rfl⟩ := fresh_of_mem_ofSymbols hn
      rfl

/-- Two expanded functions change places, and a third one is new behind them. -/
theorem expanded_completeRebuild_behind :
    let d : Document := ⟨"file:a"⟩
    let leaf (name : String) (line : Nat) : Rose Symbol :=
      node ⟨⟨.function, name⟩, none, .ofLines line (line + 1), .ofLines line line⟩ []
    let es : List Event := [
      .updateDocument (some d),
      .completeRebuild ⟨d, 1⟩ [leaf "f" 0, leaf "g" 3] none,
      .viewportChanged (.ofLines 0 9),
      .updateDocument (some d)]
    let symbols := [leaf "g" 0, leaf "f" 3, leaf "h" 6]
    let s := (standard.run es).2
    ∃ old, s.outline = some old ∧ Distinct old ∧ s.IsCurrent ⟨d, 2⟩ ∧
      s.outlineOf symbols none ≠ [] ∧ Distinct (s.outlineOf symbols none) ∧
      ∃ new, (s.completeRebuild ⟨d, 2⟩ symbols none).2.outline = some new ∧
        new.bare = (s.outlineOf symbols none).bare ∧
        ∀ p i j, old.item? p = some i → new.item? p = some j →
          (j.expanded = i.expanded ↔
            (i.expanded = true → Survives old (s.outlineOf symbols none) p)) := by
  intro d leaf es symbols s
  have hold : s.outline.map (fun o => decide (Distinct o)) = some true := by
    simp only [s, es, run, step, completeRebuild, ofSymbols_eq_inserted]
    decide +kernel
  have hc : s.IsCurrent ⟨d, 2⟩ := by
    simp only [s, es, run, step, completeRebuild, ofSymbols_eq_inserted]
    decide +kernel
  have hne : s.outlineOf symbols none ≠ [] := by
    simp only [s, es, run, step, completeRebuild, outlineOf, ofSymbols_eq_inserted]
    decide +kernel
  have hdn : Distinct (s.outlineOf symbols none) := by
    simp only [s, es, run, step, completeRebuild, outlineOf, ofSymbols_eq_inserted]
    decide +kernel
  obtain ⟨old, ho, hd⟩ := Option.map_eq_some_iff.1 hold
  have hd : Distinct old := of_decide_eq_true hd
  exact ⟨old, ho, hd, hc, hne, hdn, expanded_completeRebuild ho hd hc hne hdn⟩

/-- A new function in front of an expanded one and another new one behind it leave it collapsed. -/
theorem expanded_lost :
    let d : Document := ⟨"file:a"⟩
    let leaf (name : String) (line : Nat) : Rose Symbol :=
      node ⟨⟨.function, name⟩, none, .ofLines line (line + 1), .ofLines line line⟩ []
    let es : List Event := [
      .updateDocument (some d),
      .completeRebuild ⟨d, 1⟩ [leaf "f" 0] none,
      .viewportChanged (.ofLines 0 9),
      .updateDocument (some d)]
    let symbols := [leaf "e" 0, leaf "f" 3, leaf "g" 6]
    let s := (standard.run es).2
    let s' := (s.completeRebuild ⟨d, 2⟩ symbols none).2
    standard.Fresh ∧ s.IsCurrent ⟨d, 2⟩ ∧ Distinct (s.outlineOf symbols none) ∧
      s.outline.map (fun o => decide (Distinct o)) = some true ∧
      (s.outline.bind fun o => o.item? [⟨.function, "f"⟩]).map Item.expanded = some true ∧
      (s'.outline.bind fun o => o.item? [⟨.function, "f"⟩]).map Item.expanded = some false := by
  intro d leaf es symbols s s'
  refine ⟨fresh_standard, ?_, ?_, ?_, ?_, ?_⟩
  all_goals simp only [s', s, es, run, step, completeRebuild, outlineOf, ofSymbols_eq_inserted]
  all_goals decide +kernel

end Session

end SymbolOutline
