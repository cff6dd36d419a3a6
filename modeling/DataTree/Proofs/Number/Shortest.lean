import DataTree.Number.Shortest
import DataTree.Proofs.Number.Reading

/-!
# The shortest digits

The numbers that round to a magnitude form an interval around it.  It is wider
than the gap between numbers of seventeen digits, so one of the two next to
the magnitude is inside, and the search for the fewest digits ends with digits
that denote a number of the interval.

## Main definitions

* `RoundingInterval.bottom`, `RoundingInterval.center`, `RoundingInterval.top`
  — an interval as rational numbers.

## Main results

* `decimalPoint_spec` — the power of ten of a quotient.
* `RoundingInterval.exists_onGrid?` — a fine enough grid has a number to write.
* `exists_shortest` — the digits of a magnitude: at most seventeen, and no
  greater than those of the greatest one.
-/

namespace DataTree

open Magnitude

/-! ## Powers of ten -/

theorem cast_pow_ten (k : ℕ) : ((Nat.pow 10 k : ℕ) : ℚ) = 10 ^ k := by
  exact_mod_cast rfl

theorem powerOfTen_pos (e : ℤ) : 0 < (powerOfTen e).1 ∧ 0 < (powerOfTen e).2 := by
  unfold powerOfTen
  split
  · exact ⟨Numeral.pow_ten_pos _, Nat.one_pos⟩
  · exact ⟨Nat.one_pos, Numeral.pow_ten_pos _⟩

theorem powerOfTen_div (e : ℤ) : ((powerOfTen e).1 : ℚ) / (powerOfTen e).2 = 10 ^ e := by
  unfold powerOfTen
  split
  · rename_i he
    rw [cast_pow_ten, zpow_of_nonneg 10 he, Nat.cast_one, div_one]
  · rename_i he
    rw [cast_pow_ten, zpow_of_neg 10 he, Nat.cast_one, one_div]

/-- The digits of a number are as many as its power of ten says. -/
theorem exists_length_digits {n : ℕ} (hn : 0 < n) :
    ∃ k, (Decimal.digits n).length = k + 1 ∧ 10 ^ k ≤ n ∧ n < 10 ^ (k + 1) := by
  have hpos : 0 < (Decimal.digits n).length := Nat.length_toDigits_pos
  obtain ⟨k, hk⟩ := Nat.exists_eq_succ_of_ne_zero hpos.ne'
  refine ⟨k, hk, ?_, (Nat.length_toDigits_le_iff (by decide) k.succ_pos).mp hk.le⟩
  rcases Nat.eq_zero_or_pos k with rfl | hk'
  · exact hn
  · by_contra hlt
    have hle := (Nat.length_toDigits_le_iff (by decide) hk').mpr (Nat.lt_of_not_le hlt)
    rw [← Decimal.digits, hk] at hle
    exact Nat.not_succ_le_self k hle

/-- The decimal point stands right of the first digit's place. -/
theorem decimalPoint_spec {num den : ℕ} (hnum : 0 < num) (hden : 0 < den) :
    (10 : ℚ) ^ (decimalPoint num den - 1) ≤ num / den
      ∧ (num : ℚ) / den < 10 ^ decimalPoint num den := by
  have hnum' : (0 : ℚ) < num := by exact_mod_cast hnum
  have hden' : (0 : ℚ) < den := by exact_mod_cast hden
  unfold decimalPoint
  split
  · rename_i hle
    obtain ⟨k, hk, hlow, hhigh⟩ := exists_length_digits (Nat.div_pos hle hden)
    rw [hk, Nat.cast_succ, add_sub_cancel_right, ← Nat.cast_succ, zpow_natCast, zpow_natCast,
      le_div_iff₀ hden', div_lt_iff₀ hden']
    constructor
    · exact_mod_cast (Nat.le_div_iff_mul_le hden).mp hlow
    · exact_mod_cast (Nat.div_lt_iff_lt_mul hden).mp hhigh
  · rename_i hlt
    have hround : (den + num - 1) / num - 1 = (den - 1) / num := by
      rw [show den + num - 1 = den - 1 + num by omega, Nat.add_div_right _ hnum]
      rfl
    have hone : 0 < (den - 1) / num := Nat.div_pos (by omega) hnum
    have hbelow : (den - 1) / num * num < den :=
      (Nat.div_mul_le_self (den - 1) num).trans_lt (by omega)
    have habove : den ≤ ((den - 1) / num + 1) * num := by
      have hlt := (Nat.div_lt_iff_lt_mul hnum).mp (Nat.lt_succ_self ((den - 1) / num))
      rw [Nat.succ_eq_add_one] at hlt
      omega
    simp only [hround]
    generalize (den - 1) / num = t at hone hbelow habove
    obtain ⟨k, hk, hlow, hhigh⟩ := exists_length_digits hone
    rw [hk, Nat.cast_succ, sub_add_cancel_right, sub_eq_add_neg, ← neg_add, ← Nat.cast_succ,
      zpow_neg, zpow_neg, zpow_natCast, zpow_natCast, inv_eq_one_div, inv_eq_one_div,
      div_le_div_iff₀ (by positivity) hden', div_lt_div_iff₀ hden' (by positivity), one_mul]
    constructor
    · exact_mod_cast habove.trans ((Nat.mul_le_mul_right num hhigh).trans (Nat.mul_comm _ _).le)
    · refine lt_of_le_of_lt ?_ (Nat.cast_lt.mpr hbelow)
      exact_mod_cast (Nat.mul_comm _ _).le.trans (Nat.mul_le_mul_right num hlow)

/-! ## Grids -/

namespace RoundingInterval

/-- The lower end. -/
def bottom (i : RoundingInterval) : ℚ := i.low / i.den

/-- The magnitude that the numbers of an interval round to. -/
def center (i : RoundingInterval) : ℚ := i.value / i.den

/-- The upper end. -/
def top (i : RoundingInterval) : ℚ := i.high / i.den

/-- Whether the magnitude lies between the ends. -/
structure Proper (i : RoundingInterval) : Prop where
  den_pos : 0 < i.den
  bottom_lt : i.bottom < i.center
  lt_top : i.center < i.top

variable {i : RoundingInterval} {e : ℤ} {c : ℕ}

theorem mul_lt_iff (hden : 0 < i.den) (e : ℤ) (a c : ℕ) :
    a * (powerOfTen e).2 < c * (powerOfTen e).1 * i.den ↔ (a : ℚ) / i.den < c * 10 ^ e := by
  have hden' : (0 : ℚ) < i.den := by exact_mod_cast hden
  have hten : (0 : ℚ) < (powerOfTen e).2 := by exact_mod_cast (powerOfTen_pos e).2
  rw [← powerOfTen_div, ← mul_div_assoc, div_lt_div_iff₀ hden' hten]
  exact_mod_cast Iff.rfl

theorem lt_mul_iff (hden : 0 < i.den) (e : ℤ) (a c : ℕ) :
    c * (powerOfTen e).1 * i.den < a * (powerOfTen e).2 ↔ c * 10 ^ e < (a : ℚ) / i.den := by
  have hden' : (0 : ℚ) < i.den := by exact_mod_cast hden
  have hten : (0 : ℚ) < (powerOfTen e).2 := by exact_mod_cast (powerOfTen_pos e).2
  rw [← powerOfTen_div, ← mul_div_assoc, div_lt_div_iff₀ hten hden']
  exact_mod_cast Iff.rfl

/-- What rounds to the magnitude lies between the ends, or is one of them if they belong to
it. -/
theorem holds_iff (hden : 0 < i.den) : i.holds e c = true
    ↔ (i.bottom < c * 10 ^ e ∧ c * 10 ^ e < i.top)
      ∨ i.closed = true ∧ (c * 10 ^ e = i.bottom ∨ c * 10 ^ e = i.top) := by
  have heq : ∀ a, c * (powerOfTen e).1 * i.den = a * (powerOfTen e).2
      ↔ c * 10 ^ e = (a : ℚ) / i.den := fun a => by
    rw [le_antisymm_iff, le_antisymm_iff, ← not_lt, ← not_lt, ← not_lt, ← not_lt,
      mul_lt_iff hden, lt_mul_iff hden]
  unfold holds bottom top
  simp only [Bool.or_eq_true, Bool.and_eq_true, decide_eq_true_eq, mul_lt_iff hden,
    lt_mul_iff hden, heq]

/-- Whether digits round to the magnitude depends on their number only. -/
theorem holds_congr (hden : 0 < i.den) {e' : ℤ} {c' : ℕ}
    (h : (c : ℚ) * 10 ^ e = c' * 10 ^ e') : i.holds e c = i.holds e' c' := by
  rw [Bool.eq_iff_iff, holds_iff hden, holds_iff hden, h]

/-- What lies between the ends rounds to the magnitude. -/
theorem holds_of_between (hi : i.Proper) (hlow : i.bottom < c * 10 ^ e)
    (hhigh : c * 10 ^ e < i.top) : i.holds e c = true :=
  (holds_iff hi.den_pos).mpr (.inl ⟨hlow, hhigh⟩)

/-- What rounds to the magnitude is not above the upper end. -/
theorem le_top_of_holds (hi : i.Proper) (h : i.holds e c = true) : c * 10 ^ e ≤ i.top := by
  rcases (holds_iff hi.den_pos).mp h with h | ⟨-, h | h⟩
  · exact h.2.le
  · exact h.trans_le (hi.bottom_lt.trans hi.lt_top).le
  · exact h.le

/-- The multiple next below the magnitude. -/
def below (i : RoundingInterval) (e : ℤ) : ℕ :=
  i.value * (powerOfTen e).2 / ((powerOfTen e).1 * i.den)

theorem below_spec (hden : 0 < i.den) (e : ℤ) :
    i.below e * 10 ^ e ≤ i.center ∧ i.center < (i.below e + 1 : ℕ) * 10 ^ e := by
  have hpos : 0 < (powerOfTen e).1 * i.den := Nat.mul_pos (powerOfTen_pos e).1 hden
  constructor
  · rw [← not_lt, center, ← mul_lt_iff hden, not_lt, Nat.mul_assoc]
    exact Nat.div_mul_le_self _ _
  · rw [center, ← mul_lt_iff hden, Nat.mul_assoc]
    exact (Nat.div_lt_iff_lt_mul hpos).mp (Nat.lt_succ_self (i.below e))

/-- The multiple below a magnitude has the digits that its grid leaves. -/
theorem below_bounds {point : ℤ} {n : ℕ} (hden : 0 < i.den) (hn : 1 ≤ n)
    (hlow : 10 ^ (point - 1) ≤ i.center) (hhigh : i.center < 10 ^ point) :
    0 < i.below (point - n) ∧ i.below (point - n) < 10 ^ n := by
  obtain ⟨hbelow, habove⟩ := below_spec hden (point - n)
  have hgap : (0 : ℚ) < 10 ^ (point - n) := by positivity
  constructor
  · have hle : (10 : ℚ) ^ (point - n) ≤ 10 ^ (point - 1) :=
      zpow_le_zpow_right₀ (by norm_num) (by omega)
    have hlt := (hle.trans hlow).trans_lt habove
    rw [lt_mul_iff_one_lt_left hgap] at hlt
    exact Nat.lt_of_succ_lt_succ (by exact_mod_cast hlt)
  · have hpoint : (10 : ℚ) ^ point = 10 ^ n * 10 ^ (point - n) := by
      rw [← zpow_natCast, ← zpow_add₀ (by norm_num)]
      congr 1
      ring
    rw [hpoint] at hhigh
    have hlt := lt_of_mul_lt_mul_right (hbelow.trans_lt hhigh) hgap.le
    exact_mod_cast hlt

/-- A multiple to write rounds to the magnitude and is one of the two next to
it. -/
theorem of_onGrid? (h : i.onGrid? e = some c) :
    i.holds e c = true ∧ (c = i.below e ∨ c = i.below e + 1) := by
  unfold onGrid? at h
  simp only at h
  rw [← below] at h
  split at h
  · cases h
  · rename_i hbelow habove
    cases h
    exact ⟨hbelow, .inl rfl⟩
  · rename_i hbelow habove
    cases h
    exact ⟨habove, .inr rfl⟩
  · rename_i hbelow habove
    split at h
    · cases h
      exact ⟨hbelow, .inl rfl⟩
    · cases h
      exact ⟨habove, .inr rfl⟩

/-- Where an interval is wider than the gaps of a grid, one of the multiples
next to the magnitude is inside. -/
theorem exists_onGrid? (hi : i.Proper) (hgap : (10 : ℚ) ^ e < i.top - i.bottom) :
    ∃ c, i.onGrid? e = some c := by
  obtain ⟨hbelow, habove⟩ := below_spec hi.den_pos e
  have hone : i.holds e (i.below e) = true ∨ i.holds e (i.below e + 1) = true := by
    by_cases hinside : i.bottom < i.below e * 10 ^ e
    · exact .inl (holds_of_between hi hinside (hbelow.trans_lt hi.lt_top))
    · refine .inr (holds_of_between hi (hi.bottom_lt.trans habove) ?_)
      push_cast
      linarith
  unfold onGrid?
  simp only
  rw [← below]
  split
  · rename_i hnot hnot'
    simp [hnot, hnot'] at hone
  · exact ⟨_, rfl⟩
  · exact ⟨_, rfl⟩
  · split
    · exact ⟨_, rfl⟩
    · exact ⟨_, rfl⟩

/-- The search ends with a multiple to write if it comes to a grid that has
one. -/
theorem exists_fewest {point : ℤ} (fuel count : ℕ)
    (h : ∃ c, i.onGrid? (point - (count + fuel : ℕ)) = some c) :
    ∃ n c, count ≤ n ∧ n ≤ count + fuel ∧ i.onGrid? (point - n) = some c
      ∧ i.fewest point fuel count = .ofNat c (point - n) := by
  induction fuel generalizing count with
  | zero =>
      obtain ⟨c, hc⟩ := h
      rw [Nat.add_zero] at hc
      exact ⟨count, c, le_refl _, le_refl _, hc, by rw [fewest, hc, Option.getD_some]⟩
  | succ fuel ih =>
      rw [fewest]
      cases hgrid : i.onGrid? (point - count) with
      | some c => exact ⟨count, c, le_refl _, Nat.le_add_right _ _, hgrid, rfl⟩
      | none =>
          rw [show count + (fuel + 1) = count + 1 + fuel by omega] at h
          obtain ⟨n, c, hlow, hhigh, hc, heq⟩ := ih (count + 1) h
          exact ⟨n, c, by omega, by omega, hc, heq⟩

end RoundingInterval

/-! ## The interval of a magnitude -/

namespace Magnitude

variable {m : Magnitude}

theorem interval_den_pos (m : Magnitude) : 0 < m.interval.den := toRatio_pos _

theorem unit_div (m : Magnitude) (n : ℕ) :
    ((n * (toRatio ⟨1, m.exponent - 2⟩).1 : ℕ) : ℚ) / m.interval.den
      = n * 2 ^ (m.exponent - 2) := by
  have hunit := toRatio_div ⟨1, m.exponent - 2⟩
  rw [value, Nat.cast_one, one_mul] at hunit
  rw [Nat.cast_mul, mul_div_assoc, ← hunit]
  rfl

/-- A quarter of the last bit. -/
theorem value_eq_quarters (m : Magnitude) :
    m.value = 4 * m.mantissa * 2 ^ (m.exponent - 2) := by
  rw [value, zpow_sub₀ two_ne_zero]
  norm_num
  ring

theorem center_interval (m : Magnitude) : m.interval.center = m.value := by
  rw [RoundingInterval.center, value_eq_quarters]
  exact_mod_cast unit_div m (4 * m.mantissa)

theorem top_interval (m : Magnitude) :
    m.interval.top = (4 * m.mantissa + 2) * 2 ^ (m.exponent - 2) := by
  rw [RoundingInterval.top]
  exact_mod_cast unit_div m (4 * m.mantissa + 2)

/-- The lower end is half of the last bit away, or a quarter of it below a
power of two. -/
theorem bottom_interval_le (hpos : 0 < m.mantissa) (hlt : m.mantissa < 2 ^ 53) :
    m.interval.bottom ≤ (4 * m.mantissa - m.mantissa / 2 ^ 52) * 2 ^ (m.exponent - 2) := by
  have hgap : ∃ below : ℕ, below ≤ 2 ∧ (m.mantissa : ℚ) / 2 ^ 52 ≤ below
      ∧ m.interval.low = (4 * m.mantissa - below) * (toRatio ⟨1, m.exponent - 2⟩).1 := by
    refine ⟨_, ?_, ?_, rfl⟩
    · split <;> decide
    · rw [div_le_iff₀ (by positivity)]
      split
      · rename_i hpower
        rw [Bool.and_eq_true, decide_eq_true_eq] at hpower
        rw [hpower.1, shiftLeft_cast, Nat.cast_one]
      · exact_mod_cast (by omega : m.mantissa ≤ 2 * 2 ^ 52)
  obtain ⟨below, hle, hgap, hlow⟩ := hgap
  rw [RoundingInterval.bottom, hlow, unit_div, Nat.cast_sub (by omega)]
  push_cast
  gcongr

theorem value_pos (hpos : 0 < m.mantissa) : 0 < m.value := by
  rw [value]
  positivity

theorem proper_interval (hpos : 0 < m.mantissa) (hlt : m.mantissa < 2 ^ 53) :
    m.interval.Proper := by
  have hunit : (0 : ℚ) < 2 ^ (m.exponent - 2) := by positivity
  have hpos' : (0 : ℚ) < m.mantissa := by exact_mod_cast hpos
  refine ⟨interval_den_pos m, ?_, ?_⟩
  · refine (bottom_interval_le hpos hlt).trans_lt ?_
    rw [center_interval, value_eq_quarters, mul_lt_mul_iff_of_pos_right hunit, sub_lt_self_iff]
    positivity
  · rw [center_interval, top_interval, value_eq_quarters, mul_lt_mul_iff_of_pos_right hunit]
    exact lt_add_of_pos_right _ two_pos

/-- Seventeen digits are fine enough: the interval is wider than their gap. -/
theorem gap_lt (hpos : 0 < m.mantissa) (hlt : m.mantissa < 2 ^ 53) {point : ℤ}
    (hpoint : 10 ^ (point - 1) ≤ m.value) :
    (10 : ℚ) ^ (point - 17) < m.interval.top - m.interval.bottom := by
  have hpos' : (0 : ℚ) < m.mantissa := by exact_mod_cast hpos
  have hlt' : (m.mantissa : ℚ) < 2 ^ 53 := by exact_mod_cast hlt
  have hbottom := bottom_interval_le hpos hlt
  calc (10 : ℚ) ^ (point - 17) = 10 ^ (point - 1) / 10 ^ 16 := by
        rw [show point - 17 = point - 1 - (16 : ℕ) by push_cast; ring, zpow_sub₀ (by norm_num),
          zpow_natCast]
    _ ≤ m.value / 10 ^ 16 := by gcongr
    _ < m.value / 2 ^ 53 := by
        have hvalue := value_pos hpos
        gcongr
        norm_num
    _ ≤ (2 + m.mantissa / 2 ^ 52) * 2 ^ (m.exponent - 2) := by
        rw [value_eq_quarters, mul_div_right_comm]
        gcongr
        linarith
    _ ≤ m.interval.top - m.interval.bottom := by
        rw [top_interval]
        linarith

/-- Only the greatest magnitude has an interval that goes beyond this. -/
theorem top_le (h : m.InRange) (hm : m ≠ greatest) :
    m.interval.top ≤ (2 ^ 55 - 6) * 2 ^ (maxExponent - 2) := by
  have hlt := h.mantissa_lt
  rw [top_interval]
  rcases eq_or_lt_of_le h.exponent_le with hexp | hexp
  · have hne : m.mantissa ≠ 2 ^ 53 - 1 := by
      intro hmantissa
      refine hm ?_
      cases m
      cases hmantissa
      cases hexp
      rfl
    have hmantissa : (m.mantissa : ℚ) ≤ 2 ^ 53 - 2 := by
      have hnat : m.mantissa + 2 ≤ 2 ^ 53 := by omega
      have hcast : (m.mantissa : ℚ) + 2 ≤ 2 ^ 53 := by exact_mod_cast hnat
      linarith
    rw [hexp]
    refine mul_le_mul_of_nonneg_right ?_ (zpow_nonneg two_pos.le _)
    linarith
  · have hmantissa : (m.mantissa : ℚ) ≤ 2 ^ 53 := by exact_mod_cast hlt.le
    have hpowers := zpow_le_zpow_right₀ (one_le_two (α := ℚ))
      (by omega : m.exponent - 2 ≤ maxExponent - 2 - 1)
    calc (4 * m.mantissa + 2 : ℚ) * 2 ^ (m.exponent - 2)
        ≤ (4 * 2 ^ 53 + 2) * 2 ^ (maxExponent - 2 - 1) := by
          refine mul_le_mul (by linarith) hpowers (by positivity) (by norm_num)
      _ = (2 ^ 54 + 1) * 2 ^ (maxExponent - 2) := by
          rw [zpow_sub_one₀ two_ne_zero]
          ring
      _ ≤ (2 ^ 55 - 6) * 2 ^ (maxExponent - 2) :=
          mul_le_mul_of_nonneg_right (by norm_num) (zpow_nonneg two_pos.le _)

/-- Digits below that are within those of the greatest double. -/
theorem withinGreatest_of_le {k : ℕ} {e : ℤ} (hcount : k ≤ Nat.pow 10 17)
    (hle : (k : ℚ) * 10 ^ e ≤ (2 ^ 55 - 6) * 2 ^ (maxExponent - 2)) :
    Numeral.WithinGreatest k e := by
  refine ⟨hcount, fun he => Nat.lt_succ_iff.mp ?_⟩
  have hends : ∃ a b : ℕ, maxExponent - 2 = a ∧ 292 = (b : ℤ)
      ∧ 36028797018963962 * 2 ^ a < 17976931348623158 * 10 ^ b :=
    ⟨969, 292, rfl, rfl, by decide +kernel⟩
  obtain ⟨a, b, ha, hb, hends⟩ := hends
  obtain ⟨t, ht⟩ : ∃ t : ℕ, e = b + t := ⟨(e - 292).toNat, by omega⟩
  rw [show (e - 292).toNat = t by omega]
  rw [ha, ht, zpow_add₀ (by norm_num), zpow_natCast, zpow_natCast, zpow_natCast] at hle
  have hends : ((36028797018963962 * 2 ^ a : ℕ) : ℚ) < (17976931348623158 * 10 ^ b : ℕ) :=
    Nat.cast_lt.mpr hends
  have hcancel : (k * 10 ^ t : ℚ) * 10 ^ b < 17976931348623158 * 10 ^ b := by
    calc (k * 10 ^ t : ℚ) * 10 ^ b = k * (10 ^ b * 10 ^ t) := by ring
      _ ≤ (2 ^ 55 - 6) * 2 ^ a := hle
      _ = (36028797018963962 * 2 ^ a : ℕ) := by
          push_cast
          norm_num
      _ < (17976931348623158 * 10 ^ b : ℕ) := hends
      _ = 17976931348623158 * 10 ^ b := by push_cast; rfl
  have hlt := lt_of_mul_lt_mul_right hcancel (by positivity)
  exact_mod_cast hlt

end Magnitude

/-! ## The digits of a magnitude -/

namespace DecimalDigits

/-- A zero at the end of the digits moves to the exponent. -/
theorem ofNat_ten_mul {n : ℕ} (hn : 0 < n) (e : ℤ) : ofNat (10 * n) e = ofNat n (e + 1) := by
  have hdigits : Decimal.digits (10 * n) = Decimal.digits n ++ ['0'] :=
    (Nat.toDigits_append_toDigits (d := 0) (by decide) hn (by decide)).symm
  unfold ofNat
  simp only [hdigits, List.reverse_append, List.reverse_singleton, List.singleton_append,
    List.dropWhile_cons, decide_true, if_true, List.length_append, List.length_singleton]
  congr 1
  push_cast
  ring

/-- Digits without a zero at the end stay as they are. -/
theorem ofNat_of_mod_ne_zero {n : ℕ} (hn : n % 10 ≠ 0) (e : ℤ) :
    ofNat n e = ⟨Decimal.digits n, e⟩ := by
  have hchar : ∀ d < 10, d ≠ 0 → d.digitChar ≠ '0' := by decide
  have hlast : ∃ ds, Decimal.digits n = ds ++ [(n % 10).digitChar] := by
    rcases Nat.lt_or_ge n 10 with hsmall | hlarge
    · exact ⟨[], by rw [Nat.mod_eq_of_lt hsmall]; exact Nat.toDigits_of_lt_base hsmall⟩
    · exact ⟨_, Nat.toDigits_of_base_le (by decide) hlarge⟩
  obtain ⟨ds, hds⟩ := hlast
  have hne := hchar (n % 10) (Nat.mod_lt n (by decide)) hn
  unfold ofNat
  simp [hds, hne]

/-- The digits kept are those of a number, without its zeros at the end. -/
theorem exists_ofNat {n : ℕ} (hn : 0 < n) (e : ℤ) :
    ∃ k j : ℕ, 0 < k ∧ k * 10 ^ j = n ∧ ofNat n e = ⟨Decimal.digits k, e + j⟩ := by
  induction n using Nat.strongRecOn generalizing e with
  | ind n ih =>
      by_cases hmod : n % 10 = 0
      · obtain ⟨n', rfl⟩ := Nat.dvd_of_mod_eq_zero hmod
        obtain ⟨k, j, hk, hvalue, heq⟩ := ih n' (by omega) (by omega) (e + 1)
        refine ⟨k, j + 1, hk, ?_, ?_⟩
        · rw [← hvalue, pow_succ]
          ring
        · rw [ofNat_ten_mul (by omega), heq]
          congr 1
          push_cast
          ring
      · exact ⟨n, 0, hn, by rw [pow_zero, mul_one],
          by rw [ofNat_of_mod_ne_zero hmod, Nat.cast_zero, add_zero]⟩

end DecimalDigits

/-- The shortest digits of a magnitude are those of a number that rounds to it, at most
seventeen, and are within those of the greatest one. -/
theorem exists_shortest {m : Magnitude} (h : m.InRange) (hpos : 0 < m.mantissa) :
    ∃ k e, shortest m = ⟨Decimal.digits k, e⟩ ∧ 0 < k ∧ Numeral.WithinGreatest k e
      ∧ m.interval.holds e k = true := by
  by_cases hgreatest : m = greatest
  · subst hgreatest
    exact ⟨17976931348623157, 292, by decide +kernel, by decide, ⟨by decide, by decide⟩,
      by decide +kernel⟩
  · have hproper := proper_interval hpos h.mantissa_lt
    have hcenter := center_interval m
    have hvalue : 0 < m.interval.value := by
      refine Nat.pos_of_ne_zero fun hzero => ?_
      rw [RoundingInterval.center, hzero, Nat.cast_zero, zero_div] at hcenter
      exact absurd hcenter (value_pos hpos).ne
    obtain ⟨hlow, hhigh⟩ := decimalPoint_spec hvalue hproper.den_pos
    rw [← RoundingInterval.center] at hlow hhigh
    have hgap := gap_lt hpos h.mantissa_lt (hcenter ▸ hlow)
    generalize hpoint : decimalPoint m.interval.value m.interval.den = point at *
    obtain ⟨n, c, hn, hn', hgrid, hfewest⟩ :=
      RoundingInterval.exists_fewest 16 1 (RoundingInterval.exists_onGrid? hproper hgap)
    obtain ⟨hholds, hnext⟩ := RoundingInterval.of_onGrid? hgrid
    obtain ⟨hfirst, hlast⟩ := RoundingInterval.below_bounds hproper.den_pos hn hlow hhigh
    have hpowers : 10 ^ n ≤ Nat.pow 10 17 := Nat.pow_le_pow_right (by decide) hn'
    obtain ⟨k, j, hk, hkept, heq⟩ :=
      DecimalDigits.exists_ofNat (by omega : 0 < c) (point - n)
    have hsame : (k : ℚ) * 10 ^ (point - n + j) = c * 10 ^ (point - n) := by
      rw [← hkept, zpow_add₀ (by norm_num), zpow_natCast]
      push_cast
      ring
    refine ⟨k, point - n + j, ?_, hk, withinGreatest_of_le ?_ ?_,
      (RoundingInterval.holds_congr hproper.den_pos hsame).trans hholds⟩
    · rw [shortest, hpoint, hfewest, heq]
    · have hle : k ≤ c := hkept ▸ Nat.le_mul_of_pos_right k (Nat.pow_pos (by decide))
      omega
    · rw [hsame]
      exact (RoundingInterval.le_top_of_holds hproper hholds).trans (top_le h hgreatest)

end DataTree
