import DataTree.Number.Decimal
import DataTree.Number.Double

/-!
# Numerals

A numeral is the text of a number, split into sign, whole digits, fraction
and exponent; printing it gives the text back.  It denotes an integer if it
has neither fraction nor exponent and fits the words in use, and a binary64
number otherwise.

There are two readings.  `value?` is the reading of tree documents: integers
up to 64 bits signed or unsigned, and doubles from the digits that fit 64
bits, scaled by a power of ten in a single rounded operation.  `nearest` is
the reading of stored text inside queries: signed 64-bit integers, and the
double nearest to the exact decimal.

## Main definitions

* `Numeral.read` — the numeral at the start of a text.
* `Numeral.value?`, `Numeral.nearest` — the two readings.
-/

namespace DataTree

/-- The exponent of a numeral as written: `e`, `E`, an optional sign, and
digits. -/
structure Exponent where
  mark : Char
  sign : Option Char
  digits : List Char
  deriving DecidableEq, Repr

/-- The text of a number. -/
structure Numeral where
  negative : Bool
  whole : List Char
  fraction : List Char
  exponent : Option Exponent
  deriving DecidableEq, Repr

/-- The value of a numeral: an integer or a binary64 number. -/
inductive Number where
  | integer (n : Int)
  | double (d : Double)
  deriving DecidableEq, Repr

/-- Equality of values; an integer is never equal to a double. -/
def Number.same : Number → Number → Bool
  | .integer a, .integer b => a = b
  | .double a, .double b => a.same b
  | _, _ => false

namespace Numeral

/-! ## Text -/

def Exponent.chars (e : Exponent) : List Char := e.mark :: e.sign.toList ++ e.digits

def chars (n : Numeral) : List Char :=
  (if n.negative then ['-'] else []) ++ n.whole
    ++ (if n.fraction.isEmpty then [] else '.' :: n.fraction)
    ++ (match n.exponent with
        | some e => Exponent.chars e
        | none => [])

/-- The numeral of an integer. -/
def ofInt (n : Int) : Numeral := ⟨n < 0, Decimal.digits n.natAbs, [], none⟩

/-- Whole digits: a zero alone, or digits that start with another. -/
def readWhole : List Char → Option (List Char × List Char)
  | '0' :: rest => if (rest.head?.map Char.isDigit).getD false then none else some (['0'], rest)
  | c :: rest =>
    if c.isDigit then some (c :: rest.takeWhile Char.isDigit, rest.dropWhile Char.isDigit)
    else none
  | [] => none

/-- Digits after a point, at least one; no digits without a point. -/
def readFraction : List Char → Option (List Char × List Char)
  | '.' :: rest =>
    match rest.takeWhile Char.isDigit with
    | [] => none
    | ds => some (ds, rest.dropWhile Char.isDigit)
  | cs => some ([], cs)

/-- The sign of an exponent, if it has one. -/
def readSign : List Char → Option Char × List Char
  | '+' :: rest => (some '+', rest)
  | '-' :: rest => (some '-', rest)
  | cs => (none, cs)

/-- An exponent, if there is a mark; it needs at least one digit. -/
def readExponent (cs : List Char) : Option (Option Exponent × List Char) :=
  match cs with
  | [] => some (none, cs)
  | c :: rest =>
    if c = 'e' || c = 'E' then
      match (readSign rest).2.takeWhile Char.isDigit with
      | [] => none
      | ds => some (some ⟨c, (readSign rest).1, ds⟩, (readSign rest).2.dropWhile Char.isDigit)
    else some (none, cs)

/-- Reads a numeral: a whole part without leading zeros, then an optional
fraction and an optional exponent. -/
def read (cs : List Char) : Option (Numeral × List Char) := do
  let negative := cs.head? = some '-'
  let (whole, cs) ← readWhole (if negative then cs.drop 1 else cs)
  let (fraction, cs) ← readFraction cs
  let (exponent, cs) ← readExponent cs
  return (⟨negative, whole, fraction, exponent⟩, cs)

/-! ## Value in a document -/

/-- Takes digits into `n` as long as it stays within 64 bits; returns the
number and the digits left over. -/
def fitDigits (n : Nat) : List Char → Nat × List Char
  | [] => (n, [])
  | c :: cs =>
    let next := 10 * n + (c.toNat - '0'.toNat)
    if next < UInt64.size then fitDigits next cs else (n, c :: cs)

/-- `10 ^ k` rounded, for the powers within range. -/
def powerMagnitude (k : Nat) : Magnitude := (Magnitude.round? (Nat.pow 10 k) 1).getD .zero

/-- `m * 10 ^ e` in one rounded operation, or in two where the power itself
is out of range; twice out of range leaves zero. -/
def scale (m : Magnitude) (e : Int) : Option Magnitude :=
  if 0 ≤ e then
    if e ≤ 308 then m.mul? (powerMagnitude e.toNat)
    else if m.isZero then some m else none
  else if -308 ≤ e then m.div? (powerMagnitude (-e).toNat)
  else if -616 ≤ e then
    (m.div? (powerMagnitude 308)).bind fun small => small.div? (powerMagnitude (-e - 308).toNat)
  else some .zero

/-- Bound of the exponents that are told apart. -/
def exponentBound : Int := (1 <<< 31 : Nat)

/-- The digits that fit 64 bits and the power of ten they are scaled by,
without the written exponent. -/
def significand (n : Numeral) : Nat × Int :=
  let (fromWhole, wholeLeft) := fitDigits 0 n.whole
  let (fromAll, fractionLeft) := fitDigits fromWhole n.fraction
  (fromAll, (wholeLeft.length : Int) - (n.fraction.length - fractionLeft.length : Nat))

/-- The double of a numeral, unless it is too large. -/
def double? (n : Numeral) : Option Double := do
  let (digits, power) := n.significand
  let magnitude ← Magnitude.round? digits 1
  match n.exponent with
  | none => return ⟨n.negative, ← scale magnitude power⟩
  | some e =>
    let size : Int := Decimal.natOfDigits e.digits
    let down := e.sign = some '-'
    if exponentBound ≤ size then
      if digits = 0 || down then return ⟨n.negative, .zero⟩ else none
    else return ⟨n.negative, ← scale magnitude (if down then power - size else power + size)⟩

/-- The number a numeral of a tree document denotes, unless it is too large:
an integer from -2^63 up to 2^64-1, else a double.  Minus zero is a
double. -/
def value? (n : Numeral) : Option Number :=
  let size := Decimal.natOfDigits n.whole
  if n.fraction.isEmpty && n.exponent.isNone && !(n.negative && size = 0)
      && size ≤ (if n.negative then 1 <<< 63 else UInt64.size - 1) then
    some (.integer (if n.negative then -(size : Int) else size))
  else n.double?.map .double

/-! ## Value in a query -/

/-- The value of a stored numeral in a query: it may be beyond every
double. -/
inductive Stored where
  | integer (n : Int)
  | double (d : Double)
  | infinite (negative : Bool)
  deriving DecidableEq, Repr

/-- Decimal places that are told apart; beyond them a number is too large or
rounds to zero. -/
def placesBound : Int := 400

/-- The double nearest to the exact decimal. -/
def nearestDouble (n : Numeral) : Stored :=
  let ds := n.whole ++ n.fraction
  let size := Decimal.natOfDigits ds
  let written : Int :=
    match n.exponent with
    | none => 0
    | some e =>
      let size : Int := Decimal.natOfDigits e.digits
      if e.sign = some '-' then -size else size
  let power := written - n.fraction.length
  let places := power + (Decimal.digits size).length
  if size = 0 || places < -placesBound then .double ⟨n.negative, .zero⟩
  else if placesBound < places then .infinite n.negative
  else
    let rounded :=
      if 0 ≤ power then Magnitude.round? (size * Nat.pow 10 power.toNat) 1
      else Magnitude.round? size (Nat.pow 10 (-power).toNat)
    match rounded with
    | some m => .double ⟨n.negative, m⟩
    | none => .infinite n.negative

/-- The number a stored numeral is compared as: a signed 64-bit integer, else
the nearest double. -/
def nearest (n : Numeral) : Stored :=
  let size : Int := Decimal.natOfDigits n.whole
  let value := if n.negative then -size else size
  if n.fraction.isEmpty && n.exponent.isNone && decide (Decimal.IsInt64 value) then .integer value
  else n.nearestDouble

end Numeral

end DataTree
