/-!
# Binary floating point numbers

A finite binary64 number is kept as what it denotes: a sign, and a mantissa
times a power of two.  Rounding is one function on exact quotients of
natural numbers, so every operation is the exact one followed by `round?`.

The pair of a nonzero number is normal: its mantissa has 53 bits, or the
exponent is the smallest one.

## Main definitions

* `Magnitude.round?` — the number nearest to a quotient, ties to the even
  mantissa, unless it is too large.
* `Double.compareInt` — exact comparison with an integer.
-/

namespace DataTree

/-- A finite binary64 number without its sign: `mantissa * 2 ^ exponent`. -/
structure Magnitude where
  mantissa : Nat
  exponent : Int
  deriving DecidableEq, Repr

namespace Magnitude

/-- The least exponent, that of the numbers next to zero. -/
def minExponent : Int := -1074

/-- The exponent of the largest numbers. -/
def maxExponent : Int := 971

def zero : Magnitude := ⟨0, minExponent⟩

def isZero (m : Magnitude) : Bool := m.mantissa = 0

/-- `num / den` in units of `2 ^ e`, as a quotient. -/
def inUnits (num den : Nat) (e : Int) : Nat × Nat :=
  if 0 ≤ e then (num, den <<< e.toNat) else (num <<< (-e).toNat, den)

/-- The exponent that gives the quotient a mantissa of 53 bits, or the least
exponent if that is smaller. -/
def exponentFor (num den : Nat) : Int :=
  let guess : Int := (num.log2 : Int) - (den.log2 : Int) - 52
  let (n, d) := inUnits num den guess
  max (if n / d < 1 <<< 52 then guess - 1 else guess) minExponent

/-- The integer nearest to `num / den`, the even one of two. -/
def roundEven (num den : Nat) : Nat :=
  let q := num / den
  let twice := 2 * (num % den)
  if den < twice || (twice = den && q % 2 = 1) then q + 1 else q

/-- The magnitude nearest to `num / den`; `none` beyond the largest one. -/
def round? (num den : Nat) : Option Magnitude :=
  if num = 0 then some zero
  else
    let e := exponentFor num den
    let (n, d) := inUnits num den e
    let m := roundEven n d
    let result : Magnitude := if m = 1 <<< 53 then ⟨1 <<< 52, e + 1⟩ else ⟨m, e⟩
    if maxExponent < result.exponent then none else some result

/-- The exact value as a quotient. -/
def toRatio (m : Magnitude) : Nat × Nat :=
  if 0 ≤ m.exponent then (m.mantissa <<< m.exponent.toNat, 1)
  else (m.mantissa, 1 <<< (-m.exponent).toNat)

/-- Rounded product. -/
def mul? (a b : Magnitude) : Option Magnitude :=
  round? (a.toRatio.1 * b.toRatio.1) (a.toRatio.2 * b.toRatio.2)

/-- Rounded quotient. -/
def div? (a b : Magnitude) : Option Magnitude :=
  round? (a.toRatio.1 * b.toRatio.2) (a.toRatio.2 * b.toRatio.1)

end Magnitude

/-- A finite binary64 number; zero has two signs. -/
structure Double where
  negative : Bool
  magnitude : Magnitude
  deriving DecidableEq, Repr

namespace Double

/-- Equality of values: the two zeros are equal. -/
def same (a b : Double) : Bool :=
  a = b || (a.magnitude.isZero && b.magnitude.isZero)

/-- The numerator of the exact value over `magnitude.toRatio.2`. -/
def numerator (d : Double) : Int :=
  if d.negative then -(d.magnitude.toRatio.1 : Int) else d.magnitude.toRatio.1

/-- How the exact value compares with an integer. -/
def compareInt (d : Double) (n : Int) : Ordering :=
  compare d.numerator (n * d.magnitude.toRatio.2)

end Double

end DataTree
