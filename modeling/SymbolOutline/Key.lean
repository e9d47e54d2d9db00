import SymbolOutline.Kind

/-
Keys and paths. A key is what tells an entry from its siblings; a path lists the keys from a root
down to an entry, and the empty path stands for the place that holds the roots. Both are ordered:
keys by kind and then by name, paths as words over keys, so that a path comes before its
extensions.
-/

namespace SymbolOutline

/-- What tells an entry from its siblings. -/
structure Key where
  kind : Kind
  name : String
deriving DecidableEq, Repr

namespace Key

/-- The text that shows a key. -/
def text (k : Key) : String := k.kind.text ++ "-" ++ k.name

/-- Keys are ordered by kind, then by the characters of their names. -/
instance : LT Key where
  lt a b := a.kind.rank < b.kind.rank ∨ a.kind.rank = b.kind.rank ∧ a.name < b.name

instance (a b : Key) : Decidable (a < b) := inferInstanceAs (Decidable (_ ∨ _))

protected theorem lt_irrefl (a : Key) : ¬ a < a := by
  rintro (h | ⟨-, h⟩)
  · exact Nat.lt_irrefl _ h
  · exact String.lt_irrefl _ h

protected theorem lt_trans {a b c : Key} (h : a < b) (h' : b < c) : a < c := by
  rcases h with h | ⟨h, hn⟩ <;> rcases h' with h' | ⟨h', hn'⟩
  · exact .inl (Nat.lt_trans h h')
  · exact .inl (h' ▸ h)
  · exact .inl (h ▸ h')
  · exact .inr ⟨h.trans h', String.lt_trans hn hn'⟩

protected theorem lt_trichotomy (a b : Key) : a < b ∨ a = b ∨ b < a := by
  rcases Nat.lt_trichotomy a.kind.rank b.kind.rank with h | h | h
  · exact .inl (.inl h)
  · rcases Decidable.em (a.name < b.name) with hn | hn
    · exact .inl (.inr ⟨h, hn⟩)
    · rcases Decidable.em (b.name < a.name) with hn' | hn'
      · exact .inr (.inr (.inr ⟨h.symm, hn'⟩))
      · refine .inr (.inl ?_)
        cases a; cases b
        simp only [Key.mk.injEq]
        exact ⟨Kind.rank_inj h, String.le_antisymm hn' hn⟩
  · exact .inr (.inr (.inl h))

end Key

/-- The keys from a root down to an entry. -/
abbrev Path := List Key

namespace Path

instance : LawfulBEq Path := inferInstance

/-- The text that shows a path. -/
def text : Path → String
  | [] => "#root"
  | p => " > ".intercalate (p.map Key.text)

/-- The path of the place that holds an entry; the place of the roots has none. -/
def parent? : Path → Option Path
  | [] => none
  | p => some p.dropLast

protected theorem lt_irrefl (p : Path) : ¬ p < p :=
  haveI : Std.Irrefl (· < · : Key → Key → Prop) := ⟨Key.lt_irrefl⟩
  List.lt_irrefl p

protected theorem lt_trans {p q r : Path} (h : p < q) (h' : q < r) : p < r :=
  haveI : Trans (· < · : Key → Key → Prop) (· < ·) (· < ·) := ⟨Key.lt_trans⟩
  List.lt_trans h h'

protected theorem lt_trichotomy (p q : Path) : p < q ∨ p = q ∨ q < p := by
  induction p generalizing q with
  | nil => cases q with
    | nil => exact .inr (.inl rfl)
    | cons b q => exact .inl (.nil)
  | cons a p ih => cases q with
    | nil => exact .inr (.inr .nil)
    | cons b q =>
      rcases Key.lt_trichotomy a b with h | rfl | h
      · exact .inl (.rel h)
      · rcases ih q with h | rfl | h
        · exact .inl (.cons h)
        · exact .inr (.inl rfl)
        · exact .inr (.inr (.cons h))
      · exact .inr (.inr (.rel h))

end Path

end SymbolOutline
