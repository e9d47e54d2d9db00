/-
Floating-point numbers in decimal. A finite double that is not zero is `m * 2 ^ q` for whole numbers
`m` and `q`. The numbers that round to it form an interval, and of the decimals in that interval the
shortest is written: for ever more digits the two decimals next to the number are tried, and of two
that serve the nearer is taken. All of this is exact arithmetic on natural numbers.
-/

namespace SymbolOutline.Decimal

/-- A ratio of natural numbers, the lower of which is not zero. -/
structure Ratio where
  num : Nat
  den : Nat

namespace Ratio

/-- The ratio `n * 2 ^ e`. -/
def binary (n : Nat) (e : Int) : Ratio :=
  if 0 ≤ e then ⟨n * Nat.pow 2 e.toNat, 1⟩ else ⟨n, Nat.pow 2 (-e).toNat⟩

/-- The ratio `n * 10 ^ e`. -/
def decimal (n : Nat) (e : Int) : Ratio :=
  if 0 ≤ e then ⟨n * Nat.pow 10 e.toNat, 1⟩ else ⟨n, Nat.pow 10 (-e).toNat⟩

/-- Whether one ratio is less than another. -/
def less (a b : Ratio) : Bool := a.num * b.den < b.num * a.den

/-- The ratio divided by `10 ^ e`, rounded down. -/
def units (a : Ratio) (e : Int) : Nat :=
  if 0 ≤ e then a.num / (a.den * Nat.pow 10 e.toNat)
  else a.num * Nat.pow 10 (-e).toNat / a.den

/-- The number of places by which a ratio below one has to be shifted to reach one. -/
def shiftToOne (a : Ratio) : (fuel places : Nat) → Nat
  | 0, places => places
  | fuel + 1, places =>
    if a.den ≤ a.num * Nat.pow 10 places then places else shiftToOne a fuel (places + 1)

/-- The exponent of the greatest power of ten that does not exceed a ratio. It is exact for the
ratios of doubles, which are at least `10 ^ -324`. -/
def order (a : Ratio) : Int :=
  if a.den ≤ a.num then ((Nat.toDigits 10 (a.num / a.den)).length : Int) - 1
  else -(a.shiftToOne 330 1 : Int)

end Ratio

/-- A double that is neither zero nor infinite nor undefined, apart from its sign. -/
structure Magnitude where
  mantissa : Nat
  exponent : Int
  /-- The next smaller double is only half as far away as the next greater one. -/
  narrowBelow : Bool

namespace Magnitude

/-- The magnitude of a double by its bits. -/
def ofBits (bits : Nat) : Magnitude :=
  let fraction : Nat := bits % Nat.pow 2 52
  let scale : Nat := bits / Nat.pow 2 52 % Nat.pow 2 11
  if scale = 0 then ⟨fraction, -1074, false⟩
  else ⟨fraction + Nat.pow 2 52, Int.ofNat scale - 1075, fraction = 0 && 1 < scale⟩

/-- The magnitude as a ratio. -/
def ratio (m : Magnitude) : Ratio := .binary m.mantissa m.exponent

/-- A ratio rounds to the magnitude. The ends of the interval do so for even mantissas. -/
def rounds (m : Magnitude) (a : Ratio) : Bool :=
  let low := Ratio.binary (4 * m.mantissa - if m.narrowBelow then 1 else 2) (m.exponent - 2)
  let high := Ratio.binary (4 * m.mantissa + 2) (m.exponent - 2)
  if m.mantissa % 2 = 0 then !a.less low && !high.less a else low.less a && a.less high

/-- The decimal `c * 10 ^ e` nearest to the magnitude of the two next to it with a given `e`, if it
rounds to the magnitude. Of two that are as near the even one is taken. -/
def neighbour? (m : Magnitude) (e : Int) : Option Nat :=
  let c := m.ratio.units e
  let below := m.rounds (.decimal c e)
  let above := m.rounds (.decimal (c + 1) e)
  if below && above then
    let middle := Ratio.decimal (10 * c + 5) (e - 1)
    if m.ratio.less middle || (!middle.less m.ratio && c % 2 = 0) then some c else some (c + 1)
  else if below then some c
  else if above then some (c + 1)
  else none

/-- Takes zeros off the end of the digits of `c * 10 ^ e`. -/
def strip : (fuel c : Nat) → (e : Int) → Nat × Int
  | 0, c, e => (c, e)
  | fuel + 1, c, e => if c ≠ 0 && c % 10 = 0 then strip fuel (c / 10) (e + 1) else (c, e)

/-- The first of the numbers of digits `n`, `n + 1`, … that serves. -/
def search (m : Magnitude) : (fuel n : Nat) → Nat × Int
  | 0, n => (m.ratio.units (m.ratio.order - n + 1), m.ratio.order - n + 1)
  | fuel + 1, n =>
    let e := m.ratio.order - n + 1
    match m.neighbour? e with
    | some c => strip 20 c e
    | none => search m fuel (n + 1)

/-- The shortest decimal that rounds to the magnitude, as `c * 10 ^ e` with `c` not ending in zero.
Seventeen digits always serve. -/
def shortest (m : Magnitude) : Nat × Int := m.search 17 1

end Magnitude

/-- How numbers are written out. -/
structure Style where
  /-- Numbers whose first digit stands for a power of ten from `10 ^ least` to `10 ^ greatest` are
  written without an exponent. -/
  least : Int
  greatest : Int
  /-- What is written after a whole number that has no exponent. -/
  wholeEnd : String
  /-- What is written before a positive exponent. -/
  plus : String

/-- The digits `ds`, the first of which stands for `10 ^ first`, written out in a style. -/
def write (style : Style) (ds : List Char) (first : Int) : String :=
  if style.least ≤ first ∧ first ≤ style.greatest then
    if first < 0 then
      "0." ++ String.ofList (List.replicate (-first - 1).toNat '0' ++ ds)
    else
      let places := first.toNat + 1
      if ds.length ≤ places then
        String.ofList (ds ++ List.replicate (places - ds.length) '0') ++ style.wholeEnd
      else String.ofList (ds.take places) ++ "." ++ String.ofList (ds.drop places)
  else
    let mantissa := String.ofList (ds.take 1) ++
      (if ds.length ≤ 1 then "" else "." ++ String.ofList (ds.drop 1))
    mantissa ++ "e" ++ (if first < 0 then "-" else style.plus) ++ toString first.natAbs

/-- A finite double written out with the fewest digits that read back. -/
def text (style : Style) (x : Float) : String :=
  let bits := x.toBits.toNat
  let sign := if bits / Nat.pow 2 63 = 0 then "" else "-"
  if bits % Nat.pow 2 63 = 0 then sign ++ "0" ++ style.wholeEnd
  else
    let (c, e) := (Magnitude.ofBits bits).shortest
    let ds := Nat.toDigits 10 c
    sign ++ write style ds (e + ds.length - 1)

end SymbolOutline.Decimal
