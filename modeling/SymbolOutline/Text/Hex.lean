/-
Hexadecimal digits.
-/

namespace SymbolOutline.Text

/-- The digit of a number below sixteen. -/
def hexDigit (n : Nat) : Char := if n < 10 then Char.ofNat (48 + n) else Char.ofNat (87 + n)

/-- The value of a digit, in upper or lower case. -/
def hexValue? (c : Char) : Option Nat :=
  if '0' ≤ c && c ≤ '9' then some (c.toNat - 48)
  else if 'a' ≤ c && c ≤ 'f' then some (c.toNat - 87)
  else if 'A' ≤ c && c ≤ 'F' then some (c.toNat - 55)
  else none

/-- The number that digits stand for. -/
def hexNumber? (ds : List Char) : Option Nat :=
  ds.foldlM (fun n d => (hexValue? d).map fun v => 16 * n + v) 0

/-- The number that so many digits at the start stand for, and what follows them. -/
def takeHex? (count : Nat) (cs : List Char) : Option (Nat × List Char) :=
  if cs.length < count then none else (hexNumber? (cs.take count)).map (·, cs.drop count)

end SymbolOutline.Text
