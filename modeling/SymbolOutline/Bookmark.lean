import SymbolOutline.Outline

/-
Bookmarks and the shelf that keeps them. The bookmarks of an outline are its regions and tags, taken
out from under all other entries. The shelf remembers the bookmarks of the documents they were last
set for, up to a number of documents; the document set longest ago goes first.
-/

namespace SymbolOutline

namespace Outline

mutual
/-- The bookmarks at and below an entry. -/
def bookmarksOf : Rose Item → Forest Item
  | .node i ts =>
    if i.key.kind = .region ∨ i.key.kind = .tag then [.node i (bookmarks ts)] else bookmarks ts
/-- The regions and tags of a forest, arranged as they were but without entries of other kinds. -/
def bookmarks : Forest Item → Forest Item
  | [] => []
  | t :: ts => bookmarksOf t ++ bookmarks ts
end

end Outline

/-- The bookmarks of documents, the document last set coming first. -/
structure Shelf where
  capacity : Nat
  entries : List (String × Forest Item)
deriving DecidableEq

namespace Shelf

/-- The number of documents remembered where none is chosen. -/
def standardCapacity : Nat := 256

/-- An empty shelf. It has room for at least one document. -/
def empty (capacity : Nat) : Shelf := ⟨max capacity 1, []⟩

/-- The number of documents on the shelf. -/
def size (s : Shelf) : Nat := s.entries.length

/-- The documents on the shelf, the one last set coming first. -/
def uris (s : Shelf) : List String := s.entries.map Prod.fst

/-- The bookmarks of a document. -/
def get? (s : Shelf) (uri : String) : Option (Forest Item) :=
  (s.entries.find? fun e => e.1 = uri).map Prod.snd

/-- The shelf without a document. -/
def erase (s : Shelf) (uri : String) : Shelf :=
  { s with entries := s.entries.filter fun e => e.1 ≠ uri }

/-- Sets the bookmarks of a document. With none to set, the document goes from the shelf. -/
def set (s : Shelf) (uri : String) (bookmarks : Forest Item) : Shelf :=
  if bookmarks = [] then s.erase uri
  else { s with entries := ((uri, bookmarks) :: (s.erase uri).entries).take s.capacity }

@[simp] theorem capacity_set (s : Shelf) (uri : String) (b : Forest Item) :
    (s.set uri b).capacity = s.capacity := by
  unfold set
  split <;> rfl

end Shelf

end SymbolOutline
