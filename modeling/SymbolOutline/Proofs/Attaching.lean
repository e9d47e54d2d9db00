import SymbolOutline.Proofs.Matching
import SymbolOutline.Proofs.WorkingSets

/-
A display that is attached while the session has an outline. It starts without rows, and from then on it is told what
changes and never what was there (`mirrors_attached`).

Until another outline comes the display stays without rows, since updates find none to change (`roots_run`). Of that
outline it gets the entries that the comparison matched with no old one (`foldl_applyTo_changesTo_nil`): these are
inserted, and all else is about rows that it lacks. So it has what the session has exactly if nothing at the top was
matched, and then it keeps up.
-/

namespace SymbolOutline

open Forest Rose Outline

/-! ## Changes where there are no rows -/

namespace View

/-- Where there are no rows, only what is inserted at the top brings any. -/
theorem applyTo_nil {c : Change} (h : ∀ before entries, c ≠ .insert [] before entries) :
    applyTo [] c = [] := by
  cases c with
  | update path property value =>
    match path with
    | [] => rfl
    | [k] => rfl
    | k :: j :: path => rfl
  | insert path before entries =>
    cases path with
    | nil => exact absurd rfl (h before entries)
    | cons k path => rfl
  | delete path keys =>
    cases path with
    | nil =>
      have hnone : ∀ t ∈ ([] : Forest Row), t.key ∉ keys := by simp
      exact foldl_removeChild_eq_self hnone
    | cons k path => rfl
  | move path keys before =>
    cases path with
    | nil =>
      have htaken : takeOut keys ([] : Forest Row) = ([], []) := by
        clear h
        induction keys with
        | nil => rfl
        | cons k keys ih => exact ih
      show insertBefore before (takeOut keys []).1 (takeOut keys []).2 = []
      rw [htaken, insertBefore_eq_append (by simp)]
      rfl
    | cons k path => rfl

theorem foldl_applyTo_nil {cs : List Change} (h : ∀ c ∈ cs, ∀ before entries, c ≠ .insert [] before entries) :
    cs.foldl applyTo [] = [] := by
  induction cs with
  | nil => rfl
  | cons c cs ih =>
    rw [List.foldl_cons, applyTo_nil (h c (List.mem_cons_self ..))]
    exact ih fun d hd => h d (List.mem_cons_of_mem _ hd)

/-- Updates bring no rows. -/
theorem foldl_applyTo_updates_nil {cs : List Change} (h : ∀ c ∈ cs, c.isStructural = false) :
    cs.foldl applyTo [] = [] :=
  foldl_applyTo_nil fun c hc before entries he => by
    have := h c hc
    rw [he] at this
    cases this

theorem map_key_modifyChild {k : Key} {f : Rose Row → Rose Row} (hf : ∀ t, (f t).key = t.key)
    (ts : Forest Row) : (modifyChild k f ts).map Rose.key = ts.map Rose.key := by
  induction ts with
  | nil => rfl
  | cons t ts ih =>
    rw [modifyChild]
    split
    · rw [List.map_cons, List.map_cons, hf]
    · rw [List.map_cons, List.map_cons, ih]

/-- Updates leave the keys of the rows at the top alone. -/
theorem map_key_foldl_applyTo {cs : List Change} (h : ∀ c ∈ cs, c.isStructural = false)
    (roots : Forest Row) : (cs.foldl applyTo roots).map Rose.key = roots.map Rose.key := by
  induction cs generalizing roots with
  | nil => rfl
  | cons c cs ih =>
    rw [List.foldl_cons, ih fun d hd => h d (List.mem_cons_of_mem _ hd)]
    have := h c (List.mem_cons_self ..)
    cases c with
    | update path property value =>
      match path with
      | [] => rfl
      | [k] => exact map_key_modifyChild (fun t => by cases t; exact Row.key_set ..) roots
      | k :: j :: path => exact map_key_modifyChild (fun t => key_setChildren ..) roots
    | _ => cases this

end View

namespace Outline

variable {old new l r ns : Forest Item} {o n : Rose Item} {place : Path} {next : Option Key}

/-- The entries at the top of a new outline that are matched with none of the old one. -/
def newcomers (old new : Forest Item) : Forest Item :=
  new.filter fun t => ¬ Meets (old.map Rose.key) (new.map Rose.key) t.key

theorem newcomers_of_not_meets (h : ∀ k, ¬ Meets (old.map Rose.key) (new.map Rose.key) k) :
    newcomers old new = new := by
  unfold newcomers
  rw [List.filter_eq_self]
  exact fun t _ => by simpa using h t.key

/-- A matched entry is no newcomer, and leaves the others as they are. -/
theorem newcomers_matched {us vs : Forest Item} (hn : Distinct (us ++ n :: vs))
    (hmeets : ∀ k, Meets (old.map Rose.key) ((us ++ n :: vs).map Rose.key) k ↔
      k = n.key ∨ Meets ((l ++ r).map Rose.key) ((us ++ vs).map Rose.key) k) :
    newcomers old (us ++ n :: vs) = newcomers (l ++ r) (us ++ vs) := by
  obtain ⟨hus, hvs, husv⟩ := distinct_append.1 hn
  obtain ⟨hnv, -, -⟩ := distinct_cons.1 hvs
  unfold newcomers
  simp only [hmeets]
  rw [List.filter_append, List.filter_append, List.filter_cons_of_neg (by simp)]
  congr 1
  · refine List.filter_congr fun t ht => ?_
    simp [husv t ht n (List.mem_cons_self ..)]
  · refine List.filter_congr fun t ht => ?_
    simp [hnv t ht]

/-- Changes at a place, carried out where there are no rows: at the top they bring the newcomers, and elsewhere
nothing. -/
def Brings (place : Path) (old new : Forest Item) (next : Option Key) (d : Delta) : Prop :=
  Located place new → Distinct old → Distinct new → (∀ k ∈ next, ∀ t ∈ new, t.key ≠ k) →
    d.changes.foldl View.applyTo [] = if place = [] then rows (newcomers old new) else []

/-- Changes for a matched entry bring nothing. -/
def BringsNone (o n : Rose Item) (d : Delta) : Prop :=
  Located n.value.path n.children → Distinct o.children → Distinct n.children → n.value.path ≠ [] →
    d.changes.foldl View.applyTo [] = []

theorem foldl_applyTo_pass_nil (place : Path) (passed : Forest Item) (k : Key) (before : Option Key) :
    (pass place passed k before).changes.foldl View.applyTo [] = [] := by
  refine View.foldl_applyTo_nil fun c hc before entries => ?_
  unfold pass at hc
  split at hc
  · cases hc
  · obtain rfl := List.mem_singleton.1 hc
    exact Change.noConfusion

/-- Where none of the old entries is, an exchange brings the new ones. -/
theorem foldl_applyTo_exchange_absent {there : Forest Row} (hold : ∀ r ∈ there, ∀ t ∈ old, r.key ≠ t.key)
    (hnext : ∀ k ∈ next, ∀ r ∈ there, r.key ≠ k) :
    (exchange [] old new next).changes.foldl View.applyTo there = there ++ rows new := by
  have hdelete : (if old = [] then Delta.none
      else .just (.delete [] (old.map Rose.key))).changes.foldl View.applyTo there = there := by
    split
    · rfl
    · refine foldl_removeChild_eq_self fun r hr hmem => ?_
      obtain ⟨t, ht, he⟩ := List.mem_map.1 hmem
      exact hold r hr t ht he.symm
  unfold exchange
  rw [Delta.changes_append, List.foldl_append, hdelete]
  split
  · rename_i hnil
    rw [hnil]
    exact (List.append_nil _).symm
  · exact insertBefore_eq_append hnext (rows new)

theorem foldl_applyTo_exchange_below (hp : place ≠ []) :
    (exchange place old new next).changes.foldl View.applyTo [] = [] := by
  refine View.foldl_applyTo_nil fun c hc before entries he => hp ?_
  unfold exchange at hc
  rcases List.mem_append.1 hc with hc | hc
  · split at hc
    · cases hc
    · cases he.symm.trans (List.mem_singleton.1 hc)
  · split at hc
    · cases hc
    · cases he.symm.trans (List.mem_singleton.1 hc)
      rfl

/-- A match brings nothing, and the siblings beside it bring their newcomers. -/
theorem Brings.matched {us vs : Forest Item} {d m e : Delta} (hd : BringsNone o n d)
    (hm : m.changes.foldl View.applyTo [] = [])
    (hmeets : ((l ++ o :: r).map Rose.key).Nodup → ((us ++ n :: vs).map Rose.key).Nodup →
      ∀ k, Meets ((l ++ o :: r).map Rose.key) ((us ++ n :: vs).map Rose.key) k ↔
        k = n.key ∨ Meets ((l ++ r).map Rose.key) ((us ++ vs).map Rose.key) k)
    (he : Brings place (l ++ r) (us ++ vs) next e) {next' : Option Key}
    (hnext : ∀ k ∈ next, k = n.key ∨ k ∈ next') :
    Brings place (l ++ o :: r) (us ++ n :: vs) next' (d ++ m ++ e) := by
  intro hloc ho hn hne
  obtain ⟨j, cs⟩ := n
  obtain ⟨hlocu, hlocv⟩ := located_append.1 hloc
  obtain ⟨hj, hlocc, hlocv⟩ := located_cons.1 hlocv
  obtain ⟨hno, hol⟩ := distinct_remove ho
  obtain ⟨hnn, hnl⟩ := distinct_remove hn
  rw [← hj] at hlocc
  have hpath : j.path ≠ [] := by rw [hj]; simp
  have hbeside : ∀ k ∈ next, ∀ t ∈ us ++ vs, t.key ≠ k := by
    intro k hk t ht
    rcases hnext k hk with rfl | hk
    · exact key_ne_of_distinct hn t ht
    · exact hne k hk t ((List.Sublist.append_left (List.sublist_cons_self ..) us).subset ht)
  rw [Delta.changes_append, Delta.changes_append, List.foldl_append, List.foldl_append,
    hd hlocc hno hnn hpath, hm, he (located_append.2 ⟨hlocu, hlocv⟩) hol hnl hbeside,
    newcomers_matched hn (hmeets (nodup_keys ho) (nodup_keys hn))]

theorem Brings.ended (h : old = [] ∨ new = []) : Brings place old new next (exchange place old new next) := by
  intro hloc ho hn hnext
  by_cases hp : place = []
  · subst hp
    rw [foldl_applyTo_exchange_absent (by simp) (by simp),
      newcomers_of_not_meets fun k => not_meets_of_nil h]
    rfl
  · rw [foldl_applyTo_exchange_below hp, if_neg hp]

theorem Brings.fresh {os : Forest Item} (hfirst : ∀ s ∈ o :: os, s.key ≠ n.key)
    (hlast : ∀ m ∈ (n :: ns).getLast?, o.key ≠ m.key ∧ ∀ s ∈ (o :: os).getLast?, s.key ≠ m.key) :
    Brings place (o :: os) (n :: ns) next
      (.just (.insert place (some o.key) [n]) ++ exchange place (o :: os) ns next) := by
  intro hloc ho hn hnext
  rw [Delta.changes_append, List.foldl_append]
  by_cases hp : place = []
  · subst hp
    -- the old entry in front of which the newcomer is to stand is not there
    have hinsert : (Delta.just (.insert [] (some o.key) [n])).changes.foldl View.applyTo [] = rows [n] := by
      show insertBefore (some o.key) (rows [n]) [] = [] ++ rows [n]
      exact insertBefore_eq_append (by simp) (rows [n])
    have hkey : ∀ r ∈ rows [n], r.key = n.key := by
      intro r hr
      obtain rfl := List.mem_singleton.1 hr
      exact key_map_row n
    have hold : ∀ r ∈ rows [n], ∀ t ∈ o :: os, r.key ≠ t.key := by
      intro r hr t ht
      rw [hkey r hr]
      exact (hfirst t ht).symm
    have hbehind : ∀ k ∈ next, ∀ r ∈ rows [n], r.key ≠ k := by
      intro k hk r hr
      rw [hkey r hr]
      exact hnext k hk n (List.mem_cons_self ..)
    rw [hinsert, foldl_applyTo_exchange_absent hold hbehind,
      newcomers_of_not_meets fun k => not_meets_of_fresh hfirst hlast, if_pos rfl, ← rows_append]
    rfl
  · have hinsert : (Delta.just (.insert place (some o.key) [n])).changes.foldl View.applyTo [] = [] :=
      View.applyTo_nil fun before entries he => hp (Change.insert.inj he).1
    rw [hinsert, foldl_applyTo_exchange_below hp, if_neg hp]

theorem BringsNone.of_brings {d : Delta} (h : Brings n.value.path o.children n.children none d) :
    BringsNone o n (⟨o.value.updatesTo n.value, [(n.value.path, o.value.expanded)]⟩ ++ d) := by
  intro hloc ho hn hpath
  have hupdates : ∀ c ∈ o.value.updatesTo n.value, c.isStructural = false := by
    intro c hc
    obtain ⟨property, value, rfl⟩ := Item.mem_updatesTo hc
    rfl
  rw [Delta.changes_append, List.foldl_append, View.foldl_applyTo_updates_nil hupdates,
    h hloc ho hn (by simp), if_neg hpath]

theorem brings_reconcile (place : Path) (old new : Forest Item) (next : Option Key) :
    Brings place old new next (reconcile place old new next) := by
  refine reconcile_induct (R := BringsNone) (P := Brings) (fun _ _ _ => .of_brings)
    (fun _ _ _ _ => .ended) ?front ?back (fun _ _ _ _ _ _ => .fresh) place old new next
  case front =>
    intro place l o r n ns next d e hk hd he
    show Brings place _ ([] ++ n :: ns) _ _
    exact Brings.matched hd (foldl_applyTo_pass_nil ..)
      (fun ho hn k => meets_map_front hk ho hn) he fun k => .inr
  case back =>
    intro place l o r n ns next d e hends hk hd he
    exact Brings.matched hd (foldl_applyTo_pass_nil ..)
      (fun ho hn k => by simpa using meets_map_back hends hk ho hn) (by rwa [List.append_nil])
      fun k hk => .inl (Option.some.inj hk).symm

/-- Where there are no rows, the changes from one outline to another bring the newcomers at the top. -/
theorem foldl_applyTo_changesTo_nil {old new : Outline} (ho : Distinct old) (hn : new.WellKeyed) :
    (old.changesTo new).changes.foldl View.applyTo [] = rows (newcomers old new) :=
  brings_reconcile [] old new none hn.located ho hn.distinct (by simp)

/-- Where nothing is matched at the top, no expansion is lent. -/
theorem lendExpansion_eq_self {old new : Outline} (ho : Distinct old) (hn : new.WellKeyed)
    (h : ∀ k, ¬ Meets (old.map Rose.key) (new.map Rose.key) k) :
    lendExpansion (old.changesTo new).expansion new = new := by
  have hkept : (old.changesTo new).kept = [] := by
    refine List.eq_nil_iff_forall_not_mem.2 fun (p, b) hmem => ?_
    obtain ⟨hs, i, hi, -⟩ := (mem_kept_changesTo ho hn p b).1 hmem
    cases p with
    | nil => cases hi
    | cons k p => exact h k hs.1
  rw [Delta.expansion, hkept]
  rfl

end Outline

/-! ## Sessions -/

namespace Session

variable {s₀ s : Session} {v : View}

/-- A display has the rows of a session's outline, if there is one. -/
def Mirrors (v : View) (s : Session) : Prop := ∀ o, s.outline = some o → v.roots = (View.ofForest o).roots

/-- An event brings a session another outline. -/
def Installs (s : Session) : Event → Prop
  | .completeRebuild t symbols text => s.IsCurrent t ∧ s.outlineOf symbols text ≠ []
  | _ => False

/-- No event of a run brings another outline. -/
def InstallsNone (s : Session) : List Event → Prop
  | [] => True
  | e :: es => ¬ s.Installs e ∧ (s.step e).2.InstallsNone es

/-! ### Until another outline comes -/

theorem roots_sent (h : v.roots = []) {cs : List Change} (hcs : ∀ c ∈ cs, c.isStructural = false)
    {ms : List Message} (hms : Sent cs ms) : (ms.foldl View.handle v).roots = [] := by
  have hroots : cs.foldl View.applyTo v.roots = [] := by rw [h, View.foldl_applyTo_updates_nil hcs]
  rcases hms with ⟨-, rfl⟩ | ⟨-, rfl | ⟨target, rfl⟩⟩
  · exact h
  · exact hroots
  · exact hroots

theorem roots_follows (h : v.roots = []) {move : Outline → Tracker × Outline × List Change}
    (hmove : ∀ o, Toggles o (move o).2.2 (move o).2.1) {result : List Message × Session}
    (hf : s.Follows move result) : (result.1.foldl View.handle v).roots = [] := by
  rcases hf with ⟨-, rfl⟩ | ⟨o, inboxes, -, hsent, -⟩
  · exact h
  · exact roots_sent h (hmove o).isStructural hsent

/-- A display without rows stays so, unless another outline comes. -/
theorem roots_step (h : v.roots = []) {e : Event} (he : ¬ s.Installs e) :
    ((s.step e).1.foldl View.handle v).roots = [] := by
  cases e with
  | updateDocument document =>
    rcases s.updateDocument_cases document with ⟨-, reason, hs⟩ | ⟨d, -, -, hs⟩
    · rw [hs]
      rfl
    · rw [hs]
      exact h
  | completeRebuild t symbols text =>
    rcases s.completeRebuild_cases t symbols text with ⟨-, hs⟩ | ⟨-, -, hs⟩ | ⟨hc, hne, -⟩
    · rw [step, hs]
      exact h
    · rw [step, hs]
      rfl
    · exact absurd ⟨hc, hne⟩ he
  | selectionChanged cursors =>
    exact roots_follows h (fun o => s.tracker.toggles_call o (.focus cursors))
      (s.follows_selectionChanged cursors)
  | viewportChanged visible =>
    exact roots_follows h (fun o => s.tracker.toggles_call o (.view visible))
      (s.follows_viewportChanged visible)
  | diagnosticsChanged d ds =>
    rcases s.diagnosticsChanged_cases d ds with ⟨-, hs⟩ | ⟨o, inboxes, -, -, hsent, -⟩
    · rw [step, hs]
      exact h
    · exact roots_sent h (s.badges.isStructural_apply o ds) hsent
  | setPin pin => exact h
  | clear reason => rfl
  | changeDepth delta => exact h
  | attachView => exact h

theorem roots_run (h : v.roots = []) {es : List Event} (he : s.InstallsNone es) :
    ((s.run es).1.foldl View.handle v).roots = [] := by
  induction es generalizing s v with
  | nil => exact h
  | cons e es ih =>
    show (((s.step e).1 ++ ((s.step e).2.run es).1).foldl View.handle v).roots = []
    rw [List.foldl_append]
    exact ih (roots_step h he.1) he.2

/-! ### When it comes -/

/-- What takes the place of an outline is sent as changes. They bring the newcomers, with the badges that these
get. -/
theorem handle_install (h : v.roots = []) (d : Document) {old new : Outline} (ho : s.outline = some old)
    (hd : Distinct old) (hn : new.WellKeyed) :
    ∃ cs, (s.install d new).1 = [.update cs] ∧ cs.foldl View.applyTo v.roots =
      (Badges.none.apply (s.lent new) (s.rememberedFor d)).2.2.foldl View.applyTo
        (rows (newcomers old new)) := by
  refine ⟨(old.changesTo new).changes ++ (Badges.none.apply (s.lent new) (s.rememberedFor d)).2.2, ?_, ?_⟩
  · unfold install lent
    rw [ho]
    rfl
  · rw [h, List.foldl_append, foldl_applyTo_changesTo_nil hd hn]

/-- Where nothing at the top is matched, the display has all that the session has. -/
theorem inSync_install_apart (h : v.roots = []) (d : Document) {old new : Outline}
    (ho : s.outline = some old) (hd : Distinct old) (hn : new.WellKeyed) (hl : Lent (s.lent new))
    (hapart : ∀ k, ¬ Meets (old.map Rose.key) (new.map Rose.key) k) :
    InSync (s.install d new).2 ((s.install d new).1.foldl View.handle v) := by
  obtain ⟨cs, hms, hcs⟩ := handle_install h d ho hd hn
  obtain ⟨shelf, inboxes, hs⟩ := s.install_spec d new
  have hlent : s.lent new = new := by
    unfold lent
    rw [ho]
    exact lendExpansion_eq_self hd hn hapart
  have hk := Badges.wellKeyed_apply hl.wellKeyed hl.counted (s.rememberedFor d)
  have hc := Badges.counted_apply hl.wellKeyed hl.counted (s.rememberedFor d)
  have hne := Badges.apply_ne_nil hl.wellKeyed hl.counted hl.ne_nil (s.rememberedFor d)
  have hrows := Badges.foldl_applyTo_apply hl.wellKeyed hl.counted (s.rememberedFor d)
  rw [(newcomers_of_not_meets hapart).trans hlent.symm, hrows] at hcs
  rw [hms, hs]
  refine .of_some rfl hk hc hcs (if_neg ?_)
  -- without changes there would be no rows
  rintro rfl
  exact hne (rows_eq_nil_iff.1 (hcs.symm.trans h))

/-- Where something is matched, its row is missing. -/
theorem not_mirrors_install (h : v.roots = []) (d : Document) {old new : Outline}
    (ho : s.outline = some old) (hd : Distinct old) (hn : new.WellKeyed) {k : Key}
    (hk : Meets (old.map Rose.key) (new.map Rose.key) k) :
    ¬ Mirrors ((s.install d new).1.foldl View.handle v) (s.install d new).2 := by
  obtain ⟨cs, hms, hcs⟩ := handle_install h d ho hd hn
  obtain ⟨shelf, inboxes, hs⟩ := s.install_spec d new
  obtain ⟨f, hf, hlent⟩ := s.lent_eq hn
  rw [hms, hs]
  intro hm
  -- the keys at the top are on the one side those of the newcomers, and on the other those of all
  have hkeys := congrArg (List.map Rose.key) (hcs.symm.trans (hm _ rfl))
  rw [View.map_key_foldl_applyTo (Badges.none.isStructural_apply _ _), map_key_rows] at hkeys
  have hall : ((View.ofForest (Badges.none.apply (s.lent new) (s.rememberedFor d)).2.1).roots).map Rose.key =
      new.map Rose.key := by
    show (rows _).map Rose.key = _
    rw [map_key_rows, Badges.map_key_apply, hlent, map_key_mapAll]
    intro i
    obtain ⟨b, hb⟩ := hf i
    rw [hb]
    rfl
  have hmem := hk.mem
  rw [← hall, ← hkeys] at hmem
  obtain ⟨t, ht, rfl⟩ := List.mem_map.1 hmem
  exact of_decide_eq_true (List.mem_filter.1 ht).2 hk

section

variable {t : Ticket} {symbols : Forest Symbol} {text : Option TextLines}

/-- A display without rows has all that the session has when an outline comes of which nothing at the top is
matched. -/
theorem inSync_step_apart (hk : s.Keyed) (h : v.roots = [])
    (hi : s.Installs (.completeRebuild t symbols text)) (hd : Distinct (s.outlineOf symbols text))
    (hapart : ∀ old, s.outline = some old →
      ∀ k, ¬ Meets (old.map Rose.key) ((s.outlineOf symbols text).map Rose.key) k) :
    InSync (s.step (.completeRebuild t symbols text)).2
      ((s.step (.completeRebuild t symbols text)).1.foldl View.handle v) := by
  cases ho : s.outline with
  | none => exact inSync_step (.of_none ho h) fun _ => hd
  | some old =>
    rcases s.completeRebuild_cases t symbols text with ⟨hc, -⟩ | ⟨-, hnil, -⟩ | ⟨-, hne, hs⟩
    · exact absurd hi.1 hc
    · exact absurd hnil hi.2
    · rw [step, hs]
      exact inSync_install_apart h t.document ho (hk old ho).1.distinct ⟨hd, located_ofForest _⟩
        (lent_outlineOf hd hne) (hapart old ho)

/-- Else it lacks rows. -/
theorem not_mirrors_step {old : Outline} (hk : s.Keyed) (h : v.roots = [])
    (hi : s.Installs (.completeRebuild t symbols text)) (hd : Distinct (s.outlineOf symbols text))
    (ho : s.outline = some old) {k : Key}
    (hmeets : Meets (old.map Rose.key) ((s.outlineOf symbols text).map Rose.key) k) :
    ¬ Mirrors ((s.step (.completeRebuild t symbols text)).1.foldl View.handle v)
      (s.step (.completeRebuild t symbols text)).2 := by
  rcases s.completeRebuild_cases t symbols text with ⟨hc, -⟩ | ⟨-, hnil, -⟩ | ⟨-, -, hs⟩
  · exact absurd hi.1 hc
  · exact absurd hnil hi.2
  · rw [step, hs]
    exact not_mirrors_install h t.document ho (hk old ho).1.distinct ⟨hd, located_ofForest _⟩ hmeets

/-- A display that is attached at any time has the rows of the outline that comes next exactly if no entry at the
top is matched with one of the outline there is then, if there is one. And if so, it has the rows of all that
come later too. -/
theorem mirrors_attached (h : s₀.Fresh) {before waiting : List Event} (depth : Option Nat)
    (hbefore : s₀.AllUnambiguous before)
    (hwaiting : (s₀.run before).2.AllUnambiguous (.attachView :: waiting))
    (hnone : (s₀.run before).2.InstallsNone (.attachView :: waiting)) :
    let told := (s₀.run before).2.run (.attachView :: waiting)
    let s := told.2
    let new := s.outlineOf symbols text
    let mirrors := fun after : List Event =>
      let later := s.run (.completeRebuild t symbols text :: after)
      Mirrors ((told.1 ++ later.1).foldl View.handle (View.empty depth)) later.2
    let apart := ∀ old, s.outline = some old → ∀ k, ¬ Meets (old.map Rose.key) (new.map Rose.key) k
    s.Installs (.completeRebuild t symbols text) → Distinct new →
      (mirrors [] ↔ apart) ∧
        (apart → ∀ after, s.AllUnambiguous (.completeRebuild t symbols text :: after) → mirrors after) := by
  intro told s new mirrors apart hi hd
  have hkeyed : s.Keyed := (inSync_run (inSync_run (h.inSync none) hbefore) hwaiting).keyed
  have hroots : (told.1.foldl View.handle (View.empty depth)).roots = [] := roots_run rfl hnone
  have hlater : apart → ∀ after, s.AllUnambiguous (.completeRebuild t symbols text :: after) →
      mirrors after := by
    intro hapart after hu o ho
    have hsync := inSync_run (inSync_step_apart hkeyed hroots hi hd hapart) hu.2
    rw [← List.foldl_append, ← List.foldl_append] at hsync
    exact (hsync.rows_eq ho).1
  refine ⟨⟨fun hm old ho k hk => ?_, fun hapart => hlater hapart [] ⟨fun _ => hd, trivial⟩⟩, hlater⟩
  have hrun : (s.run [.completeRebuild t symbols text]).1 = (s.step (.completeRebuild t symbols text)).1 :=
    List.append_nil _
  refine not_mirrors_step hkeyed hroots hi hd ho hk fun o ho => ?_
  rw [← List.foldl_append, ← hrun]
  exact hm o ho

end

/-- A display is attached while there is a function, and the next outline has a class instead. -/
theorem mirrors_attached_replaced :
    let leaf (kind : Kind) (name : String) : Rose Symbol :=
      node ⟨⟨kind, name⟩, none, .ofLines 0 9, .ofLines 0 0⟩ []
    let d : Document := ⟨"file:a"⟩
    let before : List Event := [
      .updateDocument (some d),
      .completeRebuild ⟨d, 1⟩ [leaf .function "f"] none]
    let waiting : List Event := [.selectionChanged [.ofLines 2 2], .updateDocument (some d)]
    let told := (standard.run before).2.run (.attachView :: waiting)
    let s := told.2
    let first : Event := .completeRebuild ⟨d, 2⟩ [leaf .classType "A"] none
    let new := s.outlineOf [leaf .classType "A"] none
    let mirrors := fun after : List Event =>
      let later := s.run (first :: after)
      Mirrors ((told.1 ++ later.1).foldl View.handle (View.empty none)) later.2
    let apart := ∀ old, s.outline = some old → ∀ k, ¬ Meets (old.map Rose.key) (new.map Rose.key) k
    standard.Fresh ∧ standard.AllUnambiguous before ∧
      (standard.run before).2.AllUnambiguous (.attachView :: waiting) ∧
      (standard.run before).2.InstallsNone (.attachView :: waiting) ∧ s.Installs first ∧ Distinct new ∧
      (mirrors [] ↔ apart) ∧ (apart → ∀ after, s.AllUnambiguous (first :: after) → mirrors after) := by
  intro leaf d before waiting told s first new mirrors apart
  have hd : d.isSupported = true := by decide
  have hbefore : standard.AllUnambiguous before := by
    refine .of_forall fun t symbols text h => ?_
    simp only [before, List.mem_cons, Event.completeRebuild.injEq, reduceCtorEq, List.not_mem_nil,
      false_or, or_false] at h
    obtain ⟨-, rfl, rfl⟩ := h
    decide +kernel
  have hwaiting : (standard.run before).2.AllUnambiguous (.attachView :: waiting) := by
    refine .of_forall fun t symbols text h => ?_
    simp [waiting] at h
  have hnone : (standard.run before).2.InstallsNone (.attachView :: waiting) := ⟨id, id, id, trivial⟩
  have hinstalls : s.Installs first := by
    simp only [s, told, before, waiting, first, Installs, run, updateDocument_of_isSupported _ hd]
    decide +kernel
  have hdistinct : Distinct new := by
    simp only [new, s, told, before, waiting, run, updateDocument_of_isSupported _ hd]
    decide +kernel
  exact ⟨fresh_standard, hbefore, hwaiting, hnone, hinstalls, hdistinct,
    mirrors_attached fresh_standard none hbefore hwaiting hnone hinstalls hdistinct⟩

/-- A display is attached while there is a function, which is still there in the next outline. Then the display
stays without rows. -/
theorem not_mirrors_attached_unchanged :
    let d : Document := ⟨"file:a"⟩
    let symbols : Forest Symbol := [node ⟨⟨.function, "f"⟩, none, .ofLines 0 9, .ofLines 0 0⟩ []]
    let before : List Event := [.updateDocument (some d), .completeRebuild ⟨d, 1⟩ symbols none]
    let later := (standard.run before).2.run [
      .attachView,
      .updateDocument (some d),
      .completeRebuild ⟨d, 2⟩ symbols none]
    let seen := later.1.foldl View.handle (View.empty none)
    standard.Fresh ∧ Distinct (standard.outlineOf symbols none) ∧ seen.roots = [] ∧
      later.2.outline.map List.length = some 1 ∧ ¬ Mirrors seen later.2 := by
  intro d symbols before later seen
  have hd : d.isSupported = true := by decide
  have hseen : seen.roots = [] := by
    simp only [seen, later, before, run, updateDocument_of_isSupported _ hd]
    decide +kernel
  have hlength : later.2.outline.map List.length = some 1 := by
    simp only [later, before, run, updateDocument_of_isSupported _ hd]
    decide +kernel
  refine ⟨fresh_standard, by decide +kernel, hseen, hlength, fun hm => ?_⟩
  obtain ⟨o, ho, hone⟩ := Option.map_eq_some_iff.1 hlength
  rw [rows_eq_nil_iff.1 ((hm o ho).symm.trans hseen)] at hone
  cases hone

end Session

end SymbolOutline
