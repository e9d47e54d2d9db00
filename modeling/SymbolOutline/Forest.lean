import SymbolOutline.Key
import SymbolOutline.Rose

/-
Finding and changing trees of a forest by path. Siblings may share a key; a key then means the
first sibling that has it, for every operation alike.
-/

namespace SymbolOutline

/-- Values that have a key among their siblings. -/
class Keyed (α : Type) where
  key : α → Key

namespace Rose

/-- The key of a tree is the key of the value at its top. -/
def key {α : Type} [Keyed α] (t : Rose α) : Key := Keyed.key t.value

end Rose

namespace Forest

variable {α : Type} [Keyed α]

/-- The first tree with a key. -/
def child? (ts : Forest α) (k : Key) : Option (Rose α) := ts.find? fun t => t.key = k

/-- The tree at a path; there is none at the empty path. -/
def find? : Forest α → Path → Option (Rose α)
  | _, [] => none
  | ts, [k] => child? ts k
  | ts, k :: k' :: ks => (child? ts k).bind fun t => find? t.children (k' :: ks)

/-- The forest that a path leads into: the whole forest for the empty path, else the children of
the tree at the path. -/
def container? : Forest α → Path → Option (Forest α)
  | ts, [] => some ts
  | ts, k :: ks => (child? ts k).bind fun t => container? t.children ks

/-- Changes the first tree with a key. -/
def modifyChild (k : Key) (f : Rose α → Rose α) : Forest α → Forest α
  | [] => []
  | t :: ts => if t.key = k then f t :: ts else t :: modifyChild k f ts

/-- Changes the tree at a path. Where no tree is, nothing changes. -/
def modify (f : Rose α → Rose α) : Path → Forest α → Forest α
  | [], ts => ts
  | [k], ts => modifyChild k f ts
  | k :: k' :: ks, ts => modifyChild k (Rose.setChildren (modify f (k' :: ks))) ts

/-- Changes the forest that a path leads into. Where no tree is, nothing changes. -/
def modifyContainer (f : Forest α → Forest α) : Path → Forest α → Forest α
  | [], ts => f ts
  | k :: ks, ts => modifyChild k (Rose.setChildren (modifyContainer f ks)) ts

/-- Removes the first tree with a key. -/
def removeChild (k : Key) (ts : Forest α) : Forest α := ts.eraseP fun t => t.key = k

/-- Puts trees in front of the first tree with a key, or at the end where there is none. -/
def insertBefore (before : Option Key) (new ts : Forest α) : Forest α :=
  match before with
  | none => ts ++ new
  | some k =>
    ts.takeWhile (fun t => t.key ≠ k) ++ new ++ ts.dropWhile (fun t => t.key ≠ k)

/-- Takes out, for each key in turn, the first tree left that has it: the trees taken out, in the
order of the keys, and the trees left. -/
def takeOut : List Key → Forest α → Forest α × Forest α
  | [], ts => ([], ts)
  | k :: ks, ts =>
    match child? ts k with
    | none => takeOut ks ts
    | some t =>
      let (taken, left) := takeOut ks (removeChild k ts)
      (t :: taken, left)

mutual
/-- The paths of a tree and of all trees below it, each before those below it. -/
def pathsOf (base : Path) : Rose α → List Path
  | .node a ts => (base ++ [Keyed.key a]) :: pathsIn (base ++ [Keyed.key a]) ts
/-- The paths of all trees of a forest that a path leads into. -/
def pathsIn (base : Path) : Forest α → List Path
  | [] => []
  | t :: ts => pathsOf base t ++ pathsIn base ts
end

/-- The paths of all trees of a forest, each before those below it. -/
def paths (ts : Forest α) : List Path := pathsIn [] ts

end Forest

end SymbolOutline
