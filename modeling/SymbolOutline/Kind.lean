/-
The kinds of outline entries: the twenty-six kinds that language servers number from one, the two
kinds that comments give rise to, and numbered kinds that a host defines for itself. `Kind.rank`
numbers them all without repetition, and kinds are ordered by it.
-/

namespace SymbolOutline

/-- What sort of thing an outline entry stands for. -/
inductive Kind where
  | file | module | nameSpace | package | classType | method | property | field
  | constructor | enum | interface | function | variable | constant | string | number
  | boolean | array | object | key | null | enumMember | struct | event
  | operator | typeParameter
  /-- A stretch of text between two marking comments. -/
  | region
  /-- A single marking comment. -/
  | tag
  /-- A kind known only by its number. -/
  | custom (code : UInt32)
deriving DecidableEq, Repr

namespace Kind

/-- The kinds with numbers of their own, in the order of those numbers, which start at one. -/
def numbered : List Kind :=
  [.file, .module, .nameSpace, .package, .classType, .method, .property, .field,
    .constructor, .enum, .interface, .function, .variable, .constant, .string, .number,
    .boolean, .array, .object, .key, .null, .enumMember, .struct, .event,
    .operator, .typeParameter]

/-- The kinds that can be asked for by name. -/
def named : List Kind := numbered ++ [.region, .tag]

/-- The kind a language server means by a number; a number out of its range is a custom kind. -/
def ofCode (code : UInt32) : Kind :=
  if code = 0 then .custom code else (numbered[code.toNat - 1]?).getD (.custom code)

/-- The name of a kind. All custom kinds share one. -/
def name : Kind → String
  | .file => "File"
  | .module => "Module"
  | .nameSpace => "Namespace"
  | .package => "Package"
  | .classType => "Class"
  | .method => "Method"
  | .property => "Property"
  | .field => "Field"
  | .constructor => "Constructor"
  | .enum => "Enum"
  | .interface => "Interface"
  | .function => "Function"
  | .variable => "Variable"
  | .constant => "Constant"
  | .string => "String"
  | .number => "Number"
  | .boolean => "Boolean"
  | .array => "Array"
  | .object => "Object"
  | .key => "Key"
  | .null => "Null"
  | .enumMember => "EnumMember"
  | .struct => "Struct"
  | .event => "Event"
  | .operator => "Operator"
  | .typeParameter => "TypeParameter"
  | .region => "Region"
  | .tag => "Tag"
  | .custom _ => "Custom"

/-- The text that shows a kind: its name, and for a custom kind its number too. -/
def text : Kind → String
  | .custom code => "Custom" ++ toString code.toNat
  | k => k.name

/-- The kind of a given name, upper and lower case of the letters A to Z being the same. -/
def ofName? (name : String) : Option Kind :=
  named.find? fun k => k.name.toLower == name.toLower

/-- The place of a kind in the order of kinds; custom kinds come last, by number. -/
def rank : Kind → Nat
  | .file => 0
  | .module => 1
  | .nameSpace => 2
  | .package => 3
  | .classType => 4
  | .method => 5
  | .property => 6
  | .field => 7
  | .constructor => 8
  | .enum => 9
  | .interface => 10
  | .function => 11
  | .variable => 12
  | .constant => 13
  | .string => 14
  | .number => 15
  | .boolean => 16
  | .array => 17
  | .object => 18
  | .key => 19
  | .null => 20
  | .enumMember => 21
  | .struct => 22
  | .event => 23
  | .operator => 24
  | .typeParameter => 25
  | .region => 26
  | .tag => 27
  | .custom code => 28 + code.toNat

/-- The kinds of a list in order, each once. -/
def inOrder (ks : List Kind) : List Kind :=
  (ks.mergeSort fun j k => j.rank ≤ k.rank).eraseDups

theorem rank_custom (code : UInt32) : (custom code).rank = 28 + code.toNat := rfl

theorem rank_lt_of_ne_custom {k : Kind} (h : ∀ code, k ≠ .custom code) : k.rank < 28 := by
  cases k <;> first | exact absurd rfl (h _) | decide

/-- The kind at a place among the first twenty-eight. -/
theorem named_getElem?_rank {k : Kind} (h : ∀ code, k ≠ .custom code) :
    named[k.rank]? = some k := by
  cases k <;> first | exact absurd rfl (h _) | rfl

/-- Different kinds have different places. -/
theorem rank_inj {j k : Kind} (h : j.rank = k.rank) : j = k := by
  by_cases hj : ∃ code, j = .custom code
  · obtain ⟨m, rfl⟩ := hj
    by_cases hk : ∃ code, k = .custom code
    · obtain ⟨n, rfl⟩ := hk
      rw [rank_custom, rank_custom] at h
      rw [UInt32.toNat_inj.1 (Nat.add_left_cancel h)]
    · have := rank_lt_of_ne_custom fun c hc => hk ⟨c, hc⟩
      rw [← h, rank_custom] at this; omega
  · have hj' : ∀ code, j ≠ .custom code := fun c hc => hj ⟨c, hc⟩
    have hjr := rank_lt_of_ne_custom hj'
    have hk' : ∀ code, k ≠ .custom code := fun c hc => by
      rw [h, hc, rank_custom] at hjr; omega
    have := named_getElem?_rank hk'
    rw [← h, named_getElem?_rank hj'] at this
    exact Option.some.inj this

end Kind

end SymbolOutline
