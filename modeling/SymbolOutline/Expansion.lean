import SymbolOutline.Key

/-
Records of which entries are expanded, by path. Entries are kept in the order of paths, one per
path; of two entries for one path the later one stands.
-/

namespace SymbolOutline

/-- Which paths are expanded and which are not. -/
abbrev Expansion := List (Path × Bool)

namespace Expansion

/-- Records the state of a path, replacing an older record of it. -/
def record (p : Path) (expanded : Bool) : Expansion → Expansion
  | [] => [(p, expanded)]
  | (q, b) :: rest =>
    if p < q then (p, expanded) :: (q, b) :: rest
    else if p = q then (q, expanded) :: rest
    else (q, b) :: record p expanded rest

/-- The record left by a run of entries. -/
def ofEntries (entries : List (Path × Bool)) : Expansion :=
  entries.foldl (fun known e => record e.1 e.2 known) []

end Expansion

end SymbolOutline
