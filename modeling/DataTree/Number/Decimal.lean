/-!
# Decimal integers

Integers are written in decimal without leading zeros, with a minus sign
when negative, and are read with an optional sign and any number of leading
zeros.  The words of this package are the signed 64-bit integers; reading
refuses what lies outside them.

## Main results

* `toInt?_ofInt` — every word reads back from its decimal text.
* `natOfDigits_digits` — the digits of a number denote it.
-/

namespace DataTree.Decimal

/-! ## Digits -/

/-- The decimal digits of a number, without leading zeros. -/
def digits (n : Nat) : List Char := Nat.toDigits 10 n

/-- The number that a run of decimal digits denotes. -/
def natOfDigits (cs : List Char) : Nat := Nat.ofDigitChars 10 cs 0

@[simp] theorem natOfDigits_digits (n : Nat) : natOfDigits (digits n) = n := by
  simp [natOfDigits, digits]

theorem isDigit_of_mem_digits {n : Nat} {c : Char} (h : c ∈ digits n) : c.isDigit = true :=
  Nat.isDigit_of_mem_toDigits (by decide) (by decide) h

theorem digits_ne_nil (n : Nat) : digits n ≠ [] := Nat.toDigits_ne_nil

/-! ## Signed 64-bit words -/

/-- The range of signed 64-bit integers. -/
def IsInt64 (n : Int) : Prop := -9223372036854775808 ≤ n ∧ n ≤ 9223372036854775807

instance (n : Int) : Decidable (IsInt64 n) := by unfold IsInt64; infer_instance

/-- The word denoted by a sign and a run of digits, if there is a digit and
the value fits. -/
def signed? (negative : Bool) (ds : List Char) : Option Int :=
  let n : Int := if negative then -(natOfDigits ds : Int) else natOfDigits ds
  if ds.isEmpty then none else if IsInt64 n then some n else none

/-- Decimal text of an integer. -/
def ofInt : Int → List Char
  | .ofNat n => digits n
  | .negSucc n => '-' :: digits (n + 1)

/-- The word a whole text denotes: an optional sign, then digits only. -/
def toInt? (cs : List Char) : Option Int :=
  match cs with
  | '-' :: ds => if ds.all Char.isDigit then signed? true ds else none
  | '+' :: ds => if ds.all Char.isDigit then signed? false ds else none
  | ds => if ds.all Char.isDigit then signed? false ds else none

theorem all_isDigit_digits (n : Nat) : (digits n).all Char.isDigit = true :=
  List.all_eq_true.mpr fun _ h => isDigit_of_mem_digits h

/-- Every word reads back from its decimal text. -/
theorem toInt?_ofInt {n : Int} (h : IsInt64 n) : toInt? (ofInt n) = some n := by
  cases n with
  | ofNat n =>
    have hd := all_isDigit_digits n
    have hne := digits_ne_nil n
    have hv := natOfDigits_digits n
    simp only [ofInt]
    cases hds : digits n with
    | nil => exact absurd hds hne
    | cons d ds =>
      have hdig : d.isDigit = true := isDigit_of_mem_digits (n := n) (by simp [hds])
      rw [hds] at hd hv
      have hminus : d ≠ '-' := by rintro rfl; exact absurd hdig (by decide)
      have hplus : d ≠ '+' := by rintro rfl; exact absurd hdig (by decide)
      unfold toInt?
      split
      · rename_i heq; simp at heq; exact absurd heq.1 hminus
      · rename_i heq; simp at heq; exact absurd heq.1 hplus
      · rw [if_pos hd]
        have h' : IsInt64 (n : Int) := h
        simp [signed?, h', hv]
  | negSucc n =>
    have hd := all_isDigit_digits (n + 1)
    have hv := natOfDigits_digits (n + 1)
    have hne : (digits (n + 1)).isEmpty = false := by
      simp [digits_ne_nil]
    have h' : -((n + 1 : Nat) : Int) = Int.negSucc n := rfl
    simp only [ofInt, toInt?, hd, if_true, signed?, hv, hne, h', h]
    simp

end DataTree.Decimal
