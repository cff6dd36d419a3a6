import DataTree.Number.Numeral
import DataTree.Proofs.Number.Rounding

/-!
# Doubles that can be read

The double of a numeral is its digits, rounded, scaled by a power of ten that
is rounded too.  Scaling down always succeeds; scaling up may go beyond the
range even for the text of a double, but not from at most seventeen digits
with which the numeral is no greater than the shortest text of the greatest
double.

## Main definitions

* `Numeral.power` — the power of ten of the last digit of a numeral.
* `Numeral.WithinGreatest` — digits and a power of ten that do not go beyond
  the greatest double.

## Main results

* `Numeral.exists_scale_down`, `Numeral.exists_scale_up` — scaling succeeds.
* `Numeral.exists_double?` — such a numeral has a double.
-/

namespace DataTree.Numeral

open Magnitude

/-! ## Powers of ten -/

theorem pow_ten_le {j k : ℕ} (h : j ≤ k) :
    ((Nat.pow 10 j : ℕ) : ℚ) / (1 : ℕ) ≤ (Nat.pow 10 k : ℕ) / (1 : ℕ) := by
  rw [Nat.cast_one, div_one, div_one]
  exact_mod_cast Nat.pow_le_pow_right (by decide) h

/-- The powers of ten up to 10^308 are in range. -/
theorem round?_pow_ten {k : ℕ} (h : k ≤ 308) :
    round? (Nat.pow 10 k) 1 = some (powerMagnitude k) := by
  have hlast : ∃ l, 308 ≤ l ∧ ∃ r, round? (Nat.pow 10 l) 1 = some r :=
    ⟨308, le_refl _, Option.isSome_iff_exists.mp (by decide +kernel)⟩
  obtain ⟨l, hl, r, hr⟩ := hlast
  obtain ⟨s, hs⟩ := exists_round?_of_le Nat.one_pos Nat.one_pos (pow_ten_le (h.trans hl)) hr
  rw [powerMagnitude, hs, Option.getD_some]

theorem powerMagnitude_mono {j k : ℕ} (h : j ≤ k) (hk : k ≤ 308) :
    (powerMagnitude j).value ≤ (powerMagnitude k).value :=
  value_le_of_round? Nat.one_pos Nat.one_pos (pow_ten_le h) (round?_pow_ten (h.trans hk))
    (round?_pow_ten hk)

theorem value_powerMagnitude_zero : (powerMagnitude 0).value = 1 := by
  have hone : powerMagnitude 0 = ⟨1 <<< 52, -52⟩ := by decide +kernel
  rw [hone, value, shiftLeft_cast]
  norm_num

theorem one_le_powerMagnitude {k : ℕ} (h : k ≤ 308) : 1 ≤ (powerMagnitude k).value :=
  value_powerMagnitude_zero ▸ powerMagnitude_mono (Nat.zero_le k) h

/-! ## Scaling -/

/-- Scaling down succeeds. -/
theorem exists_scale_down {m : Magnitude} {e : ℤ} (hm : m.InRange) (he : e < 0) :
    ∃ r, scale m e = some r ∧ r.InRange := by
  rw [scale, if_neg (by omega)]
  split
  · exact exists_div? hm (one_le_powerMagnitude (by omega))
  · split
    · obtain ⟨small, hsmall, hrange⟩ := exists_div? hm (one_le_powerMagnitude (le_refl 308))
      rw [hsmall, Option.bind_some]
      exact exists_div? hrange (one_le_powerMagnitude (by omega))
    · exact ⟨zero, rfl, inRange_zero⟩

/-- Whether digits in front of a power of ten are at most seventeen, and spell
no more than the digits of the greatest double, `17976931348623157e292`. -/
structure WithinGreatest (digits : ℕ) (e : ℤ) : Prop where
  count : digits ≤ Nat.pow 10 17
  size : 292 ≤ e → digits * Nat.pow 10 (e - 292).toNat ≤ 17976931348623157

/-- The products at the upper end of the range, for the greatest digits in
front of each power of ten. -/
theorem exists_greatest_product : ∀ i < 17, ((round? (17976931348623157 / Nat.pow 10 i) 1).bind
    fun m => m.mul? (powerMagnitude (292 + i))).isSome = true := by
  decide +kernel

theorem div_one_le {a b : ℕ} (h : a ≤ b) : (a : ℚ) / (1 : ℕ) ≤ b / (1 : ℕ) := by
  rw [Nat.cast_one, div_one, div_one]
  exact_mod_cast h

theorem pow_ten_pos (k : ℕ) : 0 < Nat.pow 10 k := Nat.pow_pos (by decide)

/-- Digits in front of a power of ten that is itself in range. -/
theorem exists_product {digits k : ℕ} {m : Magnitude} (hround : round? digits 1 = some m)
    (hk : k ≤ 308) (h : WithinGreatest digits k) :
    ∃ r, m.mul? (powerMagnitude k) = some r := by
  rcases Nat.lt_or_ge k 292 with hlow | hhigh
  · have hproduct : ∃ r, (powerMagnitude 17).mul? (powerMagnitude 291) = some r :=
      Option.isSome_iff_exists.mp (by decide +kernel)
    obtain ⟨r, hr⟩ := hproduct
    refine exists_mul?_of_le ?_ (powerMagnitude_mono (by omega) (by decide)) hr
    exact value_le_of_round? Nat.one_pos Nat.one_pos (div_one_le h.count) hround
      (round?_pow_ten (by decide))
  · obtain ⟨i, rfl⟩ := Nat.exists_eq_add_of_le hhigh
    obtain ⟨r, hr⟩ := Option.isSome_iff_exists.mp (exists_greatest_product i (by omega))
    obtain ⟨m', hround', hr⟩ := Option.bind_eq_some_iff.mp hr
    have hsize := h.size (by omega)
    rw [show ((292 + i : ℕ) - 292 : ℤ).toNat = i by omega] at hsize
    have hdigits := (Nat.le_div_iff_mul_le (pow_ten_pos i)).mpr hsize
    refine exists_mul?_of_le ?_ (le_refl _) hr
    exact value_le_of_round? Nat.one_pos Nat.one_pos (div_one_le hdigits) hround hround'

/-- Scaling up succeeds up to the greatest double. -/
theorem exists_scale_up {digits : ℕ} {m : Magnitude} (hround : round? digits 1 = some m)
    {e : ℤ} (he : 0 ≤ e) (h : WithinGreatest digits e) :
    ∃ r, scale m e = some r ∧ r.InRange := by
  rw [scale, if_pos he]
  split
  · have h : WithinGreatest digits e.toNat := (Int.toNat_of_nonneg he).symm ▸ h
    obtain ⟨r, hr⟩ := exists_product hround (by omega) h
    exact ⟨r, hr, inRange_of_mul? hr⟩
  · -- only no digits at all have so great a power of ten
    have hzero : digits = 0 := by
      have hpow : Nat.pow 10 17 ≤ Nat.pow 10 (e - 292).toNat :=
        Nat.pow_le_pow_right (by decide) (by omega)
      have hle := (Nat.mul_le_mul_left digits hpow).trans (h.size (by omega))
      rw [show Nat.pow 10 17 = 100000000000000000 from rfl] at hle
      omega
    subst hzero
    cases hround
    exact ⟨zero, rfl, inRange_zero⟩

/-! ## Digits -/

theorem le_ofDigitChars (ds : List Char) (n : ℕ) : n ≤ Nat.ofDigitChars 10 ds n := by
  induction ds generalizing n with
  | nil => exact Nat.le_refl n
  | cons d ds ih =>
      rw [Nat.ofDigitChars_cons]
      exact (by omega : n ≤ 10 * n + (d.toNat - '0'.toNat)).trans (ih _)

/-- Digits whose number fits 64 bits are taken all. -/
theorem fitDigits_of_lt {ds : List Char} {n : ℕ} (h : Nat.ofDigitChars 10 ds n < UInt64.size) :
    fitDigits n ds = (Nat.ofDigitChars 10 ds n, []) := by
  induction ds generalizing n with
  | nil => rfl
  | cons d ds ih =>
      rw [Nat.ofDigitChars_cons] at h ⊢
      have hnext := (le_ofDigitChars ds _).trans_lt h
      rw [fitDigits, if_pos hnext]
      exact ih h

theorem significand_of_lt {n : Numeral}
    (h : Decimal.natOfDigits (n.whole ++ n.fraction) < UInt64.size) :
    n.significand = (Decimal.natOfDigits (n.whole ++ n.fraction), -(n.fraction.length : ℤ)) := by
  rw [Decimal.natOfDigits, Nat.ofDigitChars_append] at h ⊢
  have hwhole := (le_ofDigitChars n.fraction _).trans_lt h
  rw [significand, fitDigits_of_lt hwhole]
  simp only
  rw [fitDigits_of_lt h]
  simp

/-! ## Doubles -/

/-- The exponent of a numeral as a number. -/
def written (n : Numeral) : ℤ :=
  match n.exponent with
  | none => 0
  | some e =>
    if e.sign = some '-' then -(Decimal.natOfDigits e.digits : ℤ) else Decimal.natOfDigits e.digits

/-- The power of ten of the last digit. -/
def power (n : Numeral) : ℤ := n.written - n.fraction.length

theorem exists_round?_of_lt {digits : ℕ} (h : digits < UInt64.size) :
    ∃ m, round? digits 1 = some m := by
  have hlast : ∃ r, round? UInt64.size 1 = some r :=
    Option.isSome_iff_exists.mp (by decide +kernel)
  obtain ⟨r, hr⟩ := hlast
  exact exists_round?_of_le Nat.one_pos Nat.one_pos (div_one_le h.le) hr

/-- A numeral has a double if its digits fit 64 bits and, where they are
scaled up, are at most seventeen and spell no more than the greatest double. -/
theorem exists_double? {n : Numeral}
    (hfits : Decimal.natOfDigits (n.whole ++ n.fraction) < UInt64.size)
    (hbound : n.written < exponentBound)
    (hup : 0 ≤ n.power → WithinGreatest (Decimal.natOfDigits (n.whole ++ n.fraction)) n.power) :
    ∃ d, n.double? = some d ∧ d.magnitude.InRange := by
  obtain ⟨m, hm⟩ := exists_round?_of_lt hfits
  have hscale : ∃ r, scale m n.power = some r ∧ r.InRange := by
    rcases lt_or_ge n.power 0 with hneg | hpos
    · exact exists_scale_down (inRange_of_round? Nat.one_pos hm) hneg
    · exact exists_scale_up hm hpos (hup hpos)
  obtain ⟨r, hr, hrange⟩ := hscale
  unfold double?
  rw [significand_of_lt hfits]
  simp only [hm]
  unfold power written at hr
  unfold written at hbound
  cases hexp : n.exponent with
  | none =>
      rw [hexp] at hr
      simp only [zero_sub] at hr
      exact ⟨⟨n.negative, r⟩, by simp [hr], hrange⟩
  | some e =>
      rw [hexp] at hr hbound
      simp only at hr hbound
      by_cases hdown : e.sign = some '-'
      · rw [if_pos hdown] at hr
        simp only [hdown]
        split
        · exact ⟨⟨n.negative, zero⟩, by simp, inRange_zero⟩
        · refine ⟨⟨n.negative, r⟩, ?_, hrange⟩
          rw [neg_sub_left, neg_add'] at hr
          simp [hr]
      · rw [if_neg hdown] at hr hbound
        refine ⟨⟨n.negative, r⟩, ?_, hrange⟩
        rw [sub_eq_neg_add] at hr
        simp only [hdown, decide_false, if_neg (not_le.mpr hbound)]
        simp [hr]

end DataTree.Numeral
