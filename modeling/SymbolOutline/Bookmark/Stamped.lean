import SymbolOutline.Bookmark

/-
A shelf as it is kept. The documents stand in the order of their URIs, and each has a stamp from a clock
that goes on whenever bookmarks are set. When there are too many documents, those with the lowest stamps
go. The clock is a 64-bit word and starts anew after the last one.
-/

namespace SymbolOutline

/-- The bookmarks of a document, stamped when they were set. -/
structure Filed where
  uri : String
  stamp : UInt64
  bookmarks : Forest Item
deriving DecidableEq

namespace Filed

/-- Puts a document in its place among others, in place of the one with its URI. -/
def insert (e : Filed) : List Filed → List Filed
  | [] => [e]
  | f :: fs =>
    if e.uri < f.uri then e :: f :: fs
    else if e.uri = f.uri then e :: fs
    else f :: insert e fs

/-- Takes away the document with a URI. -/
def erase (uri : String) (es : List Filed) : List Filed := es.eraseP fun e => e.uri = uri

/-- The document with the lowest stamp, and of those with the same stamp the first. -/
def oldest? : List Filed → Option Filed
  | [] => none
  | e :: es =>
    match oldest? es with
    | none => some e
    | some f => if e.stamp ≤ f.stamp then some e else some f

theorem mem_of_oldest? {es : List Filed} {e : Filed} (h : oldest? es = some e) : e ∈ es := by
  induction es generalizing e with
  | nil => cases h
  | cons f fs ih =>
    rw [oldest?] at h
    cases ho : oldest? fs with
    | none =>
      rw [ho] at h
      exact Option.some.inj h ▸ List.mem_cons_self ..
    | some g =>
      simp only [ho] at h
      split at h
      · exact Option.some.inj h ▸ List.mem_cons_self ..
      · exact Option.some.inj h ▸ List.mem_cons_of_mem _ (ih ho)

theorem length_erase_lt {es : List Filed} {e : Filed} (h : e ∈ es) :
    (erase e.uri es).length < es.length := by
  have hpos := List.length_pos_of_mem h
  rw [erase, List.length_eraseP_of_mem h (by simp)]
  omega

/-- Takes away documents, the one with the lowest stamp first, until there is room for the others. -/
def fit (capacity : Nat) (es : List Filed) : List Filed :=
  if es.length ≤ capacity then es
  else
    match _h : oldest? es with
    | none => es
    | some e => fit capacity (erase e.uri es)
termination_by es.length
decreasing_by exact length_erase_lt (mem_of_oldest? ‹_›)

end Filed

/-- The bookmarks of documents, the documents in the order of their URIs. -/
structure StampedShelf where
  capacity : Nat
  entries : List Filed
  /-- The last stamp that was given. -/
  clock : UInt64
deriving DecidableEq

namespace StampedShelf

/-- An empty shelf. It has room for at least one document. -/
def empty (capacity : Nat) : StampedShelf := ⟨max capacity 1, [], 0⟩

/-- The number of documents on the shelf. -/
def size (s : StampedShelf) : Nat := s.entries.length

/-- The documents on the shelf, the one with the highest stamp coming first. -/
def uris (s : StampedShelf) : List String :=
  ((s.entries.map fun e => (e.stamp, e.uri)).mergeSort fun a b => b.1 ≤ a.1).map Prod.snd

/-- The bookmarks of a document. -/
def get? (s : StampedShelf) (uri : String) : Option (Forest Item) :=
  (s.entries.find? fun e => e.uri = uri).map Filed.bookmarks

/-- The shelf without a document. -/
def erase (s : StampedShelf) (uri : String) : StampedShelf :=
  { s with entries := Filed.erase uri s.entries }

/-- Takes a document from the shelf: its bookmarks, and the shelf without it. -/
def remove (s : StampedShelf) (uri : String) : Option (Forest Item) × StampedShelf :=
  (s.get? uri, s.erase uri)

/-- Sets the bookmarks of a document. With none to set, the document goes from the shelf. -/
def set (s : StampedShelf) (uri : String) (bookmarks : Forest Item) : StampedShelf :=
  if bookmarks = [] then s.erase uri
  else
    let stamp := s.clock + 1
    { s with entries := Filed.fit s.capacity (Filed.insert ⟨uri, stamp, bookmarks⟩ s.entries)
             clock := stamp }

end StampedShelf

end SymbolOutline
