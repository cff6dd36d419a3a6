import DataTree.Number.Decimal
import DataTree.Number.Double

/-!
# Decimal texts of floating point numbers

Two rules choose decimal digits for a magnitude: the fewest digits that
still round to it, and a fixed count of significant digits, rounded half up.
A `Layout` then says how digits and power of ten are written.

## Main definitions

* `shortest` — fewest digits that read back, the nearest of those.
* `significant` — the digits of a fixed count.
* `Layout.chars` — digits written positionally or with an exponent.
-/

namespace DataTree

/-- `digits * 10 ^ exponent`, with no zero at the end of the digits. -/
structure DecimalDigits where
  digits : List Char
  exponent : Int
  deriving DecidableEq, Repr

namespace DecimalDigits

/-- Digits of a number with its trailing zeros moved to the exponent. -/
def ofNat (n : Nat) (exponent : Int) : DecimalDigits :=
  let ds := Decimal.digits n
  let kept := (ds.reverse.dropWhile (· = '0')).reverse
  ⟨kept, exponent + ((ds.length : Int) - kept.length)⟩

/-- The power of ten of the first digit. -/
def leading (d : DecimalDigits) : Int := d.exponent + d.digits.length - 1

end DecimalDigits

/-! ## Choosing digits -/

/-- The least `p` with `num / den < 10 ^ p`. -/
def decimalPoint (num den : Nat) : Int :=
  if den ≤ num then (Decimal.digits (num / den)).length
  else
    let quotient := (den + num - 1) / num
    1 - (Decimal.digits (quotient - 1)).length

/-- `10 ^ e` as a quotient. -/
def powerOfTen (e : Int) : Nat × Nat :=
  if 0 ≤ e then (Nat.pow 10 e.toNat, 1) else (1, Nat.pow 10 (-e).toNat)

/-- The numbers that round to a magnitude, in quarters of its last bit and
over a common denominator; the ends belong to it if its mantissa is even. -/
structure RoundingInterval where
  low : Nat
  value : Nat
  high : Nat
  den : Nat
  closed : Bool

/-- Below a power of two the gap is half as wide. -/
def Magnitude.interval (m : Magnitude) : RoundingInterval :=
  let unit := Magnitude.toRatio ⟨1, m.exponent - 2⟩
  let below := if m.mantissa = 1 <<< 52 && Magnitude.minExponent < m.exponent then 1 else 2
  { low := (4 * m.mantissa - below) * unit.1
    value := 4 * m.mantissa * unit.1
    high := (4 * m.mantissa + 2) * unit.1
    den := unit.2
    closed := m.mantissa % 2 = 0 }

/-- Whether `c * 10 ^ e` rounds to the magnitude of the interval. -/
def RoundingInterval.holds (i : RoundingInterval) (e : Int) (c : Nat) : Bool :=
  let (num, den) := powerOfTen e
  let x := c * num * i.den
  let low := i.low * den
  let high := i.high * den
  (low < x && x < high) || (i.closed && (x = low || x = high))

/-- Distance of `c * 10 ^ e` from the value of the interval, over the
denominator that all candidates share. -/
def RoundingInterval.distance (i : RoundingInterval) (e : Int) (c : Nat) : Nat :=
  let (num, den) := powerOfTen e
  let x := c * num * i.den
  let v := i.value * den
  if x ≤ v then v - x else x - v

/-- The multiple of `10 ^ e` to write, if one next to the value rounds to it:
the nearer one, of two equally near ones the even one. -/
def RoundingInterval.onGrid? (i : RoundingInterval) (e : Int) : Option Nat :=
  let (num, den) := powerOfTen e
  let c := i.value * den / (num * i.den)
  match i.holds e c, i.holds e (c + 1) with
  | false, false => none
  | true, false => some c
  | false, true => some (c + 1)
  | true, true =>
    let near := i.distance e c
    let far := i.distance e (c + 1)
    if near < far || (near = far && c % 2 = 0) then some c else some (c + 1)

/-- Tries `count` digits, then one more, until the digits read back. -/
def RoundingInterval.fewest (i : RoundingInterval) (point : Int) :
    (fuel : Nat) → (count : Nat) → DecimalDigits
  | 0, count => .ofNat ((i.onGrid? (point - count)).getD 0) (point - count)
  | fuel + 1, count =>
    match i.onGrid? (point - count) with
    | some c => .ofNat c (point - count)
    | none => fewest i point fuel (count + 1)

/-- The fewest digits that read back as a nonzero magnitude; seventeen always
do. -/
def shortest (m : Magnitude) : DecimalDigits :=
  let i := m.interval
  i.fewest (decimalPoint i.value i.den) 16 1

/-- `count` significant digits of a nonzero magnitude, a half rounded up. -/
def significant (count : Nat) (m : Magnitude) : DecimalDigits :=
  let (num, den) := m.toRatio
  let e := decimalPoint num den - count
  let (unitNum, unitDen) := powerOfTen e
  let n := num * unitDen
  let d := den * unitNum
  .ofNat ((2 * n + d) / (2 * d)) e

/-! ## Writing digits -/

/-- How digits and a power of ten are written.  From `low` up to but not
including `high` as power of the first digit, positionally and with a
fraction; else with an exponent of at least `exponentWidth` digits, where
`pointed` asks for a fraction before it. -/
structure Layout where
  low : Int
  high : Int
  exponentWidth : Nat
  pointed : Bool

/-- A number padded with zeros on the left. -/
def padded (width n : Nat) : List Char :=
  let ds := Decimal.digits n
  List.replicate (width - ds.length) '0' ++ ds

def Layout.positional (d : DecimalDigits) : List Char :=
  let leading := d.leading
  if leading < 0 then
    '0' :: '.' :: List.replicate (-leading - 1).toNat '0' ++ d.digits
  else
    let whole := leading.toNat + 1
    if d.digits.length ≤ whole then
      d.digits ++ List.replicate (whole - d.digits.length) '0' ++ ['.', '0']
    else d.digits.take whole ++ '.' :: d.digits.drop whole

def Layout.scientific (l : Layout) (d : DecimalDigits) : List Char :=
  let leading := d.leading
  let fraction :=
    match d.digits.drop 1 with
    | [] => if l.pointed then ['.', '0'] else []
    | more => '.' :: more
  d.digits.take 1 ++ fraction
    ++ 'e' :: (if leading < 0 then '-' else '+') :: padded l.exponentWidth leading.natAbs

def Layout.chars (l : Layout) (d : DecimalDigits) : List Char :=
  if l.low ≤ d.leading && d.leading < l.high then Layout.positional d else l.scientific d

namespace Double

/-- JSON text: `0.1`, `1.0`, `1e+16`, `2.5e-6`, positional from 1e-5 up to
1e16. -/
def jsonLayout : Layout := ⟨-5, 16, 1, false⟩

/-- Comparison text: `100.0`, `1.0e+15`, `1.0e-05`, positional from 1e-4 up
to 1e15. -/
def textLayout : Layout := ⟨-4, 15, 2, true⟩

/-- The shortest text that reads back, always with a fraction or an
exponent. -/
def jsonChars (d : Double) : List Char :=
  (if d.negative then ['-'] else [])
    ++ (if d.magnitude.isZero then ['0', '.', '0'] else jsonLayout.chars (shortest d.magnitude))

/-- The text by which a stored number is compared with quoted values: fifteen
significant digits; zero has no sign. -/
def textChars (d : Double) : List Char :=
  if d.magnitude.isZero then ['0', '.', '0']
  else (if d.negative then ['-'] else []) ++ textLayout.chars (significant 15 d.magnitude)

end Double

end DataTree
