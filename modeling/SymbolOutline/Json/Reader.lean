import SymbolOutline.Json.Basic

/-
Reading JSON. Every reader takes characters and gives what it has read with the characters left, or
nothing if there is no such thing to read. A number written without a fraction and an exponent is a
whole number if it fits a signed or an unsigned 64-bit word; any other is a double.
-/

namespace SymbolOutline

namespace Json

/-- The characters between the parts of a value. -/
def isSpace (c : Char) : Bool := c = ' ' || c = '\n' || c = '\t' || c = '\r'

/-- What follows the space at the start. -/
def skipSpace (cs : List Char) : List Char := cs.dropWhile isSpace

/-- What follows a given text at the start. -/
def after? (word : String) (cs : List Char) : Option (List Char) :=
  if word.toList.isPrefixOf cs then some (cs.drop word.length) else none

/-! ## Numbers -/

/-- A number as it is written. -/
structure Numeral where
  negative : Bool
  whole : List Char
  fraction : Option (List Char)
  /-- The sign of the exponent, which is set for a minus, and its digits. -/
  exponent : Option (Bool × List Char)

/-- The digits at the start, which must be some. -/
def digits? (cs : List Char) : Option (List Char × List Char) :=
  match cs.takeWhile Char.isDigit with
  | [] => none
  | ds => some (ds, cs.dropWhile Char.isDigit)

/-- The whole part of a number: zero, or digits that do not start with zero. -/
def whole? : List Char → Option (List Char × List Char)
  | '0' :: cs => if (cs.head?.any Char.isDigit) then none else some (['0'], cs)
  | cs => digits? cs

/-- The fraction of a number, if it has one. -/
def fraction? : List Char → Option (Option (List Char) × List Char)
  | '.' :: cs => (digits? cs).map fun (ds, cs) => (some ds, cs)
  | cs => some (none, cs)

/-- The exponent of a number, if it has one. -/
def exponent? : List Char → Option (Option (Bool × List Char) × List Char)
  | c :: cs =>
    if c = 'e' || c = 'E' then
      let (negative, cs) := match cs with
        | '-' :: cs => (true, cs)
        | '+' :: cs => (false, cs)
        | cs => (false, cs)
      (digits? cs).map fun (ds, cs) => (some (negative, ds), cs)
    else some (none, c :: cs)
  | [] => some (none, [])

/-- A number at the start. -/
def numeral? (cs : List Char) : Option (Numeral × List Char) := do
  let (negative, cs) := match cs with
    | '-' :: cs => (true, cs)
    | cs => (false, cs)
  let (whole, cs) ← whole? cs
  let (fraction, cs) ← fraction? cs
  let (exponent, cs) ← exponent? cs
  return (⟨negative, whole, fraction, exponent⟩, cs)

/-- The number that digits stand for. -/
def valueOf (ds : List Char) : Nat := ds.foldl (fun n d => 10 * n + (d.toNat - 48)) 0

/-- Reads on digits behind `n` as long as the number fits a 64-bit word: the number, and the digits
left. -/
def significand (n : Nat) : List Char → Nat × List Char
  | [] => (n, [])
  | d :: ds =>
    let m := 10 * n + (d.toNat - 48)
    if m < Nat.pow 2 64 then significand m ds else (n, d :: ds)

/-- A double divided by `10 ^ places`, in steps that a double can divide by. -/
def scaleDown (x : Float) (places : Nat) : Float :=
  if places ≤ 308 then x / Float.ofScientific 1 false places
  else if x == 0 then x
  else scaleDown (x / Float.ofScientific 1 false 308) (places - 308)
termination_by places

/-- The double that is `m * 10 ^ e`, computed in doubles, if it is finite. -/
def scaled? (m : Nat) (e : Int) : Option Float :=
  let x := m.toUInt64.toFloat
  if 0 ≤ e then
    if 308 < e then (if m = 0 then some x else none)
    else
      let y := x * Float.ofScientific 1 false e.toNat
      if y.isInf then none else some y
  else some (scaleDown x e.natAbs)

namespace Numeral

/-- The double that a number stands for: its leading digits, as many as fit a 64-bit word, scaled by
a power of ten. A number too great for a double stands for none. -/
def real? (n : Numeral) : Option Float :=
  let (m, wholeLeft) := significand 0 n.whole
  let fraction := n.fraction.getD []
  let (m, fractionLeft) := significand m fraction
  let start : Int := (wholeLeft.length : Int) - ((fraction.length - fractionLeft.length : Nat) : Int)
  let magnitude :=
    match n.exponent with
    | none => scaled? m start
    | some (negative, ds) =>
      let shift := valueOf ds
      if Nat.pow 2 31 ≤ shift then
        if m ≠ 0 && !negative then none else some 0
      else scaled? m (if negative then start - shift else start + shift)
  magnitude.map fun x => if n.negative then -x else x

/-- The value that a number stands for. Minus zero is a double. -/
def value? (n : Numeral) : Option Json :=
  let v := valueOf n.whole
  if n.fraction.isNone && n.exponent.isNone then
    if n.negative then
      if 0 < v && v ≤ Nat.pow 2 63 then some (.int (-(v : Int))) else n.real?.map .real
    else if v < Nat.pow 2 64 then some (.int v)
    else n.real?.map .real
  else n.real?.map .real

end Numeral

/-! ## Texts -/

/-- The character of a numbered escape, behind its first four digits. Two halves of a surrogate pair
are one character, and none by themselves. -/
def ofUnit? (unit : Nat) (cs : List Char) : Option (Char × List Char) :=
  if 0xd800 ≤ unit && unit < 0xdc00 then
    match cs with
    | '\\' :: 'u' :: cs => do
      let (low, cs) ← Text.takeHex? 4 cs
      if 0xdc00 ≤ low && low < 0xe000 then
        return (Char.ofNat (0x10000 + (unit - 0xd800) * 0x400 + (low - 0xdc00)), cs)
      else none
    | _ => none
  else if 0xdc00 ≤ unit && unit < 0xe000 then none
  else some (Char.ofNat unit, cs)

/-- The character of an escape, behind its backslash. -/
def escape? : List Char → Option (Char × List Char)
  | '"' :: cs => some ('"', cs)
  | '\\' :: cs => some ('\\', cs)
  | '/' :: cs => some ('/', cs)
  | 'b' :: cs => some ('\x08', cs)
  | 'f' :: cs => some ('\x0c', cs)
  | 'n' :: cs => some ('\n', cs)
  | 'r' :: cs => some ('\r', cs)
  | 't' :: cs => some ('\t', cs)
  | 'u' :: cs => (Text.takeHex? 4 cs).bind fun (unit, cs) => ofUnit? unit cs
  | _ => none

theorem takeHex?_length {cs rest : List Char} {n : Nat}
    (h : Text.takeHex? 4 cs = some (n, rest)) : rest.length < cs.length := by
  unfold Text.takeHex? at h
  split at h
  · exact absurd h nofun
  · obtain ⟨_, -, h⟩ := Option.map_eq_some_iff.1 h
    obtain ⟨-, rfl⟩ := Prod.mk.inj h
    rw [List.length_drop]; omega

theorem ofUnit?_length {cs rest : List Char} {n : Nat} {c : Char}
    (h : ofUnit? n cs = some (c, rest)) : rest.length ≤ cs.length := by
  unfold ofUnit? at h
  split at h
  · split at h
    · simp only [Option.pure_def, Option.bind_eq_bind, Option.bind_eq_some_iff] at h
      obtain ⟨⟨low, rest'⟩, hx, h⟩ := h
      have := takeHex?_length hx
      split at h
      · obtain ⟨-, rfl⟩ := Prod.mk.inj (Option.some.inj h)
        simp only [List.length_cons]; omega
      · exact absurd h nofun
    · exact absurd h nofun
  · split at h
    · exact absurd h nofun
    · obtain ⟨-, rfl⟩ := Prod.mk.inj (Option.some.inj h)
      exact Nat.le_refl _

theorem escape?_length {cs rest : List Char} {c : Char} (h : escape? cs = some (c, rest)) :
    rest.length < cs.length := by
  unfold escape? at h
  split at h
  case h_9 =>
    obtain ⟨⟨n, rest'⟩, hx, h⟩ := Option.bind_eq_some_iff.1 h
    have := takeHex?_length hx
    have := ofUnit?_length h
    simp only [List.length_cons]; omega
  case h_10 => exact absurd h nofun
  all_goals
    obtain ⟨-, rfl⟩ := Prod.mk.inj (Option.some.inj h)
    exact Nat.lt_succ_self _

/-- The rest of a text behind its opening quote, in front of which stands `done` in reverse. -/
def chars? (done : List Char) : List Char → Option (String × List Char)
  | [] => none
  | c :: cs =>
    if c = '"' then some (String.ofList done.reverse, cs)
    else if c = '\\' then
      match _h : escape? cs with
      | some (e, rest) => chars? (e :: done) rest
      | none => none
    else if c.toNat < 0x20 then none
    else chars? (c :: done) cs
termination_by cs => cs.length
decreasing_by
  · have := escape?_length ‹escape? _ = some _›
    simp only [List.length_cons]; omega
  · exact Nat.lt_succ_self _

/-- A text at the start. -/
def string? : List Char → Option (String × List Char)
  | '"' :: cs => chars? [] cs
  | _ => none

/-! ## Values -/

mutual
/-- A value at the start, nested no deeper than `fuel` allows. -/
def read? : (fuel : Nat) → List Char → Option (Json × List Char)
  | 0, _ => none
  | fuel + 1, cs =>
    match skipSpace cs with
    | '"' :: cs => (chars? [] cs).map fun (s, cs) => (str s, cs)
    | '[' :: cs =>
      match skipSpace cs with
      | ']' :: cs => some (arr [], cs)
      | cs => (readMembers? fuel cs).map fun (vs, cs) => (arr vs, cs)
    | '\x7b' :: cs =>
      match skipSpace cs with
      | '\x7d' :: cs => some (obj [], cs)
      | cs => (readFields? fuel cs).map fun (vs, cs) => (obj vs, cs)
    | cs =>
      match after? "null" cs, after? "true" cs, after? "false" cs with
      | some cs, _, _ => some (null, cs)
      | _, some cs, _ => some (bool true, cs)
      | _, _, some cs => some (bool false, cs)
      | _, _, _ => (numeral? cs).bind fun (n, cs) => n.value?.map (·, cs)
/-- The members of a list that has some, up to its end. -/
def readMembers? : (fuel : Nat) → List Char → Option (List Json × List Char)
  | 0, _ => none
  | fuel + 1, cs =>
    (read? fuel cs).bind fun (v, cs) =>
      match skipSpace cs with
      | ',' :: cs => (readMembers? fuel cs).map fun (vs, cs) => (v :: vs, cs)
      | ']' :: cs => some ([v], cs)
      | _ => none
/-- The members of an object that has some, up to its end. -/
def readFields? : (fuel : Nat) → List Char → Option (List (String × Json) × List Char)
  | 0, _ => none
  | fuel + 1, cs =>
    (string? (skipSpace cs)).bind fun (name, cs) =>
      match skipSpace cs with
      | ':' :: cs =>
        (read? fuel cs).bind fun (v, cs) =>
          match skipSpace cs with
          | ',' :: cs => (readFields? fuel cs).map fun (vs, cs) => ((name, v) :: vs, cs)
          | '\x7d' :: cs => some ([(name, v)], cs)
          | _ => none
      | _ => none
end

/-- What follows a quoted text that is passed over. An escape in it need not stand for a character. -/
def skipChars? : List Char → Option (List Char)
  | [] => none
  | '"' :: cs => some cs
  | '\\' :: 'u' :: a :: b :: c :: d :: cs =>
    if [a, b, c, d].all fun x => (Text.hexValue? x).isSome then skipChars? cs else none
  | '\\' :: c :: cs =>
    if c ∈ ['"', '\\', '/', 'b', 'f', 'n', 'r', 't'] then skipChars? cs else none
  | c :: cs => if c.toNat < 0x20 || c = '\\' then none else skipChars? cs

mutual
/-- What follows a value that is passed over. A number in it may be too great. -/
def skip? : (fuel : Nat) → List Char → Option (List Char)
  | 0, _ => none
  | fuel + 1, cs =>
    match skipSpace cs with
    | '"' :: cs => skipChars? cs
    | '[' :: cs =>
      match skipSpace cs with
      | ']' :: cs => some cs
      | cs => skipMembers? fuel cs
    | '\x7b' :: cs =>
      match skipSpace cs with
      | '\x7d' :: cs => some cs
      | cs => skipFields? fuel cs
    | cs =>
      after? "null" cs <|> after? "true" cs <|> after? "false" cs <|>
        (numeral? cs).map Prod.snd
/-- What follows the members of a list that are passed over. -/
def skipMembers? : (fuel : Nat) → List Char → Option (List Char)
  | 0, _ => none
  | fuel + 1, cs =>
    (skip? fuel cs).bind fun cs =>
      match skipSpace cs with
      | ',' :: cs => skipMembers? fuel cs
      | ']' :: cs => some cs
      | _ => none
/-- What follows the members of an object that are passed over. -/
def skipFields? : (fuel : Nat) → List Char → Option (List Char)
  | 0, _ => none
  | fuel + 1, cs =>
    match skipSpace cs with
    | '"' :: cs =>
      (skipChars? cs).bind fun cs =>
        match skipSpace cs with
        | ':' :: cs =>
          (skip? fuel cs).bind fun cs =>
            match skipSpace cs with
            | ',' :: cs => skipFields? fuel cs
            | '\x7d' :: cs => some cs
            | _ => none
        | _ => none
    | _ => none
end

/-- The members of an object that has some, up to its end. Those with other names than the ones
wanted are passed over. -/
def readWanted? (wanted : List String) : (fuel : Nat) → List Char →
    Option (List (String × Json) × List Char)
  | 0, _ => none
  | fuel + 1, cs =>
    (string? (skipSpace cs)).bind fun (name, cs) =>
      match skipSpace cs with
      | ':' :: cs =>
        let field :=
          if name ∈ wanted then (read? fuel cs).map fun (v, cs) => ([(name, v)], cs)
          else (skip? fuel cs).map fun cs => ([], cs)
        field.bind fun (vs, cs) =>
          match skipSpace cs with
          | ',' :: cs => (readWanted? wanted fuel cs).map fun (ws, cs) => (vs ++ ws, cs)
          | '\x7d' :: cs => some (vs, cs)
          | _ => none
      | _ => none

/-- The fuel that a text of so many characters can use up: every step reads a character, but for the
steps that find none left. -/
def fuelFor (cs : List Char) : Nat := cs.length + 2

/-- The value that a text stands for, if there is nothing else in the text. -/
def ofText? (s : String) : Option Json :=
  match read? (fuelFor s.toList) s.toList with
  | some (v, cs) => if skipSpace cs = [] then some v else none
  | none => none

/-- The value that a text stands for, like `ofText?`, but of an object only the members with the names
wanted. What is said under other names need only be well formed. -/
def ofTextWith? (wanted : List String) (s : String) : Option Json :=
  match skipSpace s.toList with
  | '\x7b' :: cs =>
    let found := match skipSpace cs with
      | '\x7d' :: cs => some ([], cs)
      | cs => readWanted? wanted (fuelFor cs) cs
    match found with
    | some (fields, cs) => if skipSpace cs = [] then some (obj fields) else none
    | none => none
  | _ => ofText? s

end Json

end SymbolOutline
