import DataTree.Proofs.Number.Shortest

/-!
# Rounding gives back a magnitude

A number of binary64 has one pair that is normal: its mantissa has 53 bits, or its exponent
is the least one.  Rounding gives normal pairs only, and a quotient in the interval around
one is rounded to that pair: where the exponent of the quotient is that of the pair, the
mantissa is the nearest integer; just below a power of two the exponent is one less, and the
nearest integer is the power of two above.

## Main definitions

* `Magnitude.Normal` — whether a pair is the one of its number.

## Main results

* `Magnitude.normal_of_round?` — rounding gives normal pairs.
* `Numeral.normal_of_double?` — so does reading numerals.
* `Magnitude.round?_of_holds` — what lies in the interval of a normal pair rounds to it.
-/

namespace DataTree

namespace Magnitude

/-- Whether a pair is the one of its number: in range, and with all bits of the mantissa
unless the exponent is the least one. -/
structure Normal (m : Magnitude) : Prop extends m.InRange where
  le_mantissa : minExponent < m.exponent → 2 ^ 52 ≤ m.mantissa

theorem normal_zero : zero.Normal where
  toInRange := inRange_zero
  le_mantissa h := absurd h (lt_irrefl _)

/-- Zero has one normal pair. -/
theorem Normal.eq_zero {m : Magnitude} (h : m.Normal) (hzero : m.mantissa = 0) : m = zero := by
  have hexponent : m.exponent = minExponent := by
    by_contra hne
    have hle := h.le_mantissa (lt_of_le_of_ne h.le_exponent (Ne.symm hne))
    rw [hzero] at hle
    exact absurd hle (by decide)
  obtain ⟨mantissa, exponent⟩ := m
  cases hzero
  cases hexponent
  rfl

/-! ## Rounding gives normal pairs -/

theorem le_mantissa_carried {m : ℕ} {e : ℤ} (h : minExponent < e → 2 ^ 52 ≤ m) :
    minExponent < (carried m e).exponent → 2 ^ 52 ≤ (carried m e).mantissa := by
  intro hexponent
  unfold carried at hexponent ⊢
  split
  · exact (by decide : 2 ^ 52 ≤ 1 <<< 52)
  · rename_i hcarry
    rw [if_neg hcarry] at hexponent
    exact h hexponent

theorem normal_of_round? {num den : ℕ} {r : Magnitude} (hden : 0 < den)
    (h : round? num den = some r) : r.Normal := by
  refine ⟨inRange_of_round? hden h, ?_⟩
  rcases Nat.eq_zero_or_pos num with rfl | hnum
  · cases h
    exact normal_zero.le_mantissa
  · rw [round?_eq den hnum] at h
    split at h
    · cases h
    · cases h
      exact le_mantissa_carried (le_roundedMantissa hnum hden)

/-! ## Rounding by its specification -/

theorem Nearest.unique {x : ℚ} {m n : ℕ} (hm : Nearest x m) (hn : Nearest x n) : m = n :=
  Nat.le_antisymm (hm.le hn le_rfl) (hn.le hm le_rfl)

section

variable {num den : ℕ} (hnum : 0 < num) (hden : 0 < den) {e : ℤ}

include hnum hden

/-- There is only one exponent that leaves 53 bits of a quotient. -/
theorem exponentFor_eq (hmin : minExponent ≤ e) (hlt : (num : ℚ) / den < 2 ^ (e + 53))
    (hle : minExponent < e → 2 ^ (e + 52) ≤ (num : ℚ) / den) : exponentFor num den = e := by
  obtain ⟨hmin', hlt', hle'⟩ := exponentFor_spec hnum hden
  have hone : (1 : ℚ) < 2 := one_lt_two
  refine le_antisymm (not_lt.mp fun hgreater => ?_) (not_lt.mp fun hless => ?_)
  · have hpowers := (hle' (hmin.trans_lt hgreater)).trans_lt hlt
    have hexponents := (zpow_lt_zpow_iff_right₀ hone).mp hpowers
    omega
  · have hpowers := (hle (hmin'.trans_lt hless)).trans_lt hlt'
    have hexponents := (zpow_lt_zpow_iff_right₀ hone).mp hpowers
    omega

/-- A quotient is rounded to the integer nearest to it in units of its exponent. -/
theorem round?_of_nearest (hexponent : exponentFor num den = e) {n : ℕ}
    (hnear : Nearest (num / den / 2 ^ e) n) (hmax : (carried n e).exponent ≤ maxExponent) :
    round? num den = some (carried n e) := by
  have hmantissa : roundedMantissa num den = n := by
    have h := nearest_roundedMantissa num hden
    rw [hexponent] at h
    exact h.unique hnear
  rw [round?_eq den hnum, hmantissa, hexponent, if_neg (not_lt.mpr hmax)]

end

/-! ## The interval of a normal pair -/

/-- Half of the last bit below a mantissa is left to it, and half of that at a power of
two. -/
def lowerQuarters (m : Magnitude) : ℕ :=
  if m.mantissa = 1 <<< 52 && minExponent < m.exponent then 1 else 2

theorem lowerQuarters_le (m : Magnitude) : m.lowerQuarters ≤ 2 := by
  unfold lowerQuarters
  split <;> decide

/-- The interval of a magnitude in units of its exponent. -/
theorem bottom_interval {m : Magnitude} (hpos : 0 < m.mantissa) :
    m.interval.bottom = (m.mantissa - m.lowerQuarters / 4) * 2 ^ m.exponent := by
  have hlow : m.interval.low
      = (4 * m.mantissa - m.lowerQuarters) * (toRatio ⟨1, m.exponent - 2⟩).1 := rfl
  have hle := m.lowerQuarters_le
  rw [RoundingInterval.bottom, hlow, unit_div, Nat.cast_sub (by omega), zpow_sub₀ two_ne_zero]
  push_cast
  ring

theorem top_interval_eq (m : Magnitude) :
    m.interval.top = (m.mantissa + 1 / 2) * 2 ^ m.exponent := by
  rw [top_interval, zpow_sub₀ two_ne_zero]
  ring

/-- What the interval of a magnitude holds, in units of its exponent: the ends belong to
it if its mantissa is even. -/
theorem holds_interval_iff {m : Magnitude} (hpos : 0 < m.mantissa) {e : ℤ} {c : ℕ} {y : ℚ}
    (hy : (c : ℚ) * 10 ^ e = y * 2 ^ m.exponent) :
    m.interval.holds e c = true
      ↔ (m.mantissa - m.lowerQuarters / 4 < y ∧ y < m.mantissa + 1 / 2)
        ∨ m.mantissa % 2 = 0 ∧ (y = m.mantissa - m.lowerQuarters / 4 ∨ y = m.mantissa + 1 / 2) := by
  have hunit : (0 : ℚ) < 2 ^ m.exponent := by positivity
  have hclosed : m.interval.closed = true ↔ m.mantissa % 2 = 0 := decide_eq_true_iff
  rw [RoundingInterval.holds_iff m.interval_den_pos, bottom_interval hpos, top_interval_eq, hy,
    hclosed, mul_lt_mul_iff_left₀ hunit, mul_lt_mul_iff_left₀ hunit, mul_left_inj' hunit.ne',
    mul_left_inj' hunit.ne']

/-- The digits of a magnitude are about as great as it is. -/
theorem bounds_of_holds {m : Magnitude} (hm : m.InRange) (hpos : 0 < m.mantissa) {e : ℤ} {c : ℕ}
    (h : m.interval.holds e c = true) :
    (2 : ℚ) ^ (-1075 : ℤ) ≤ c * 10 ^ e ∧ (c : ℚ) * 10 ^ e ≤ 2 ^ (1024 : ℤ) := by
  have hproper := proper_interval hpos hm.mantissa_lt
  have hone : (1 : ℚ) ≤ m.mantissa := by exact_mod_cast hpos
  have hmantissa : (m.mantissa : ℚ) + 1 ≤ 2 ^ 53 := by exact_mod_cast hm.mantissa_lt
  have hquarters : (m.lowerQuarters : ℚ) ≤ 2 := by exact_mod_cast m.lowerQuarters_le
  constructor
  · have hbottom : m.interval.bottom ≤ c * 10 ^ e := by
      rcases (RoundingInterval.holds_iff hproper.den_pos).mp h with h | ⟨-, h | h⟩
      · exact h.1.le
      · exact h.ge
      · exact (hproper.bottom_lt.trans hproper.lt_top).le.trans h.ge
    have hexponent := zpow_le_zpow_right₀ (one_le_two (α := ℚ)) hm.le_exponent
    calc (2 : ℚ) ^ (-1075 : ℤ) = 1 / 2 * 2 ^ minExponent := by
          rw [show (-1075 : ℤ) = minExponent - 1 from rfl, zpow_sub_one₀ two_ne_zero]
          ring
      _ ≤ (m.mantissa - m.lowerQuarters / 4) * 2 ^ m.exponent :=
          mul_le_mul (by linarith) hexponent (by positivity) (by linarith)
      _ ≤ c * 10 ^ e := bottom_interval hpos ▸ hbottom
  · have hexponent := zpow_le_zpow_right₀ (one_le_two (α := ℚ)) hm.exponent_le
    calc (c : ℚ) * 10 ^ e ≤ m.interval.top := RoundingInterval.le_top_of_holds hproper h
      _ = (m.mantissa + 1 / 2) * 2 ^ m.exponent := top_interval_eq m
      _ ≤ 2 ^ (53 : ℤ) * 2 ^ maxExponent :=
          mul_le_mul (by norm_num; linarith) hexponent (by positivity) (by positivity)
      _ = 2 ^ (1024 : ℤ) := by rw [← zpow_add₀ two_ne_zero]; rfl

section

variable {m : Magnitude} {num den : ℕ} (hnum : 0 < num) (hden : 0 < den) {y : ℚ}
  (hy : (num : ℚ) / den = y * 2 ^ m.exponent)

include hnum hden hy

/-- A quotient with the exponent of a pair is rounded to it if its mantissa is nearest. -/
theorem round?_of_same_exponent (hm : m.InRange) (hlt : y < 2 ^ 53)
    (hle : minExponent < m.exponent → 2 ^ 52 ≤ y) (hnear : Nearest y m.mantissa) :
    round? num den = some m := by
  have hunit : (0 : ℚ) < 2 ^ m.exponent := by positivity
  have hexponent : exponentFor num den = m.exponent := by
    refine exponentFor_eq hnum hden hm.le_exponent ?_ fun hmin => ?_
    · rw [hy, zpow_add₀ two_ne_zero, mul_comm y]
      exact (mul_lt_mul_iff_right₀ hunit).mpr (by exact_mod_cast hlt)
    · rw [hy, zpow_add₀ two_ne_zero, mul_comm y]
      exact (mul_le_mul_iff_right₀ hunit).mpr (by exact_mod_cast hle hmin)
  have hcarried : carried m.mantissa m.exponent = m := by
    rw [carried, if_neg (by simpa [Nat.shiftLeft_eq] using hm.mantissa_lt.ne)]
  have hunits : (num : ℚ) / den / 2 ^ m.exponent = y := by
    rw [hy, mul_div_cancel_right₀ _ hunit.ne']
  have hmax := hm.exponent_le
  rw [← hcarried] at hmax
  rw [round?_of_nearest hnum hden hexponent (hunits ▸ hnear) hmax, hcarried]

/-- A quotient next below a power of two is rounded up to it. -/
theorem round?_of_below_power (hm : m.InRange) (hpower : m.mantissa = 1 <<< 52)
    (hmin : minExponent < m.exponent) (hlow : (2 : ℚ) ^ 52 - 1 / 4 ≤ y) (hlt : y < 2 ^ 52) :
    round? num den = some m := by
  have hunit : (0 : ℚ) < 2 ^ (m.exponent - 1) := by positivity
  have hhalf : (num : ℚ) / den = 2 * y * 2 ^ (m.exponent - 1) := by
    rw [hy, zpow_sub_one₀ two_ne_zero]
    ring
  have hexponent : exponentFor num den = m.exponent - 1 := by
    refine exponentFor_eq hnum hden (by omega) ?_ fun _ => ?_
    · rw [hhalf, zpow_add₀ two_ne_zero, mul_comm (2 * y)]
      refine (mul_lt_mul_iff_right₀ hunit).mpr ?_
      norm_num
      linarith
    · rw [hhalf, zpow_add₀ two_ne_zero, mul_comm (2 * y)]
      refine (mul_le_mul_iff_right₀ hunit).mpr ?_
      norm_num
      linarith
  have hcarried : carried (1 <<< 53) (m.exponent - 1) = m := by
    rw [carried, if_pos rfl, Int.sub_add_cancel, ← hpower]
  have hunits : (num : ℚ) / den / 2 ^ (m.exponent - 1) = 2 * y := by
    rw [hhalf, mul_div_cancel_right₀ _ hunit.ne']
  have hnear : Nearest (2 * y) (1 <<< 53) := by
    have hcast : ((1 <<< 53 : ℕ) : ℚ) = 2 ^ 53 := by rw [shiftLeft_cast, Nat.cast_one, one_mul]
    refine ⟨?_, ?_, fun _ => by decide⟩
    · rw [hcast]
      linarith
    · rw [hcast]
      linarith
  have hmax := hm.exponent_le
  rw [← hcarried] at hmax
  rw [round?_of_nearest hnum hden hexponent (hunits ▸ hnear) hmax, hcarried]

end

/-- What lies in the interval of a normal magnitude is rounded to it. -/
theorem round?_of_holds {m : Magnitude} (hm : m.Normal) (hpos : 0 < m.mantissa) {num den c : ℕ}
    {e : ℤ} (hden : 0 < den) (hvalue : (num : ℚ) / den = c * 10 ^ e)
    (h : m.interval.holds e c = true) : round? num den = some m := by
  have hunit : (0 : ℚ) < 2 ^ m.exponent := by positivity
  obtain ⟨y, hy⟩ : ∃ y : ℚ, (num : ℚ) / den = y * 2 ^ m.exponent :=
    ⟨num / den / 2 ^ m.exponent, (div_mul_cancel₀ _ hunit.ne').symm⟩
  rw [holds_interval_iff hpos (hvalue.symm.trans hy)] at h
  have hone : (1 : ℚ) ≤ m.mantissa := by exact_mod_cast hpos
  have hquarters : (m.lowerQuarters : ℚ) ≤ 2 := by exact_mod_cast m.lowerQuarters_le
  have hquarters' : (0 : ℚ) ≤ m.lowerQuarters := Nat.cast_nonneg _
  obtain ⟨hlow, hhigh⟩ : (m.mantissa : ℚ) - m.lowerQuarters / 4 ≤ y ∧ y ≤ m.mantissa + 1 / 2 := by
    rcases h with h | ⟨-, h | h⟩
    · exact ⟨h.1.le, h.2.le⟩
    · exact ⟨h.ge, by linarith⟩
    · exact ⟨by linarith, h.le⟩
  have hnum : 0 < num := by
    refine Nat.pos_of_ne_zero fun hzero => ?_
    rw [hzero, Nat.cast_zero, zero_div] at hy
    have hypos : 0 < y * 2 ^ m.exponent := mul_pos (by linarith) hunit
    exact hypos.ne hy
  by_cases hbits : minExponent < m.exponent ∧ y < 2 ^ 52
  · obtain ⟨hmin, hlt⟩ := hbits
    have hpower : m.mantissa = 1 <<< 52 := by
      by_contra hne
      have hnext : (2 : ℚ) ^ 52 + 1 ≤ m.mantissa := by
        have hle := hm.le_mantissa hmin
        exact_mod_cast (by omega : 2 ^ 52 + 1 ≤ m.mantissa)
      linarith
    have hquarter : m.lowerQuarters = 1 := by
      rw [lowerQuarters, if_pos (by simp [hpower, hmin])]
    rw [hquarter, hpower, shiftLeft_cast] at hlow
    exact round?_of_below_power hnum hden hy hm.toInRange hpower hmin (by simpa using hlow) hlt
  · have hmantissa : (m.mantissa : ℚ) + 1 ≤ 2 ^ 53 := by exact_mod_cast hm.mantissa_lt
    refine round?_of_same_exponent hnum hden hy hm.toInRange (by linarith)
      (fun hmin => not_lt.mp fun hlt => hbits ⟨hmin, hlt⟩) ⟨by linarith, hhigh, fun htie => ?_⟩
    rcases h with h | h
    · exfalso
      rcases htie with htie | htie <;> linarith [h.1, h.2]
    · exact h.1

end Magnitude

/-! ## Numerals -/

namespace Numeral

open Magnitude

/-- Scaling gives normal pairs. -/
theorem normal_of_scale {m r : Magnitude} {e : ℤ} (hm : m.Normal) (h : scale m e = some r) :
    r.Normal := by
  have hmul : ∀ {a b r : Magnitude}, a.mul? b = some r → r.Normal := fun h =>
    normal_of_round? (Nat.mul_pos (toRatio_pos _) (toRatio_pos _)) h
  have hdiv : ∀ {a r : Magnitude} {k : ℕ}, k ≤ 308 → a.div? (powerMagnitude k) = some r →
      r.Normal := by
    intro a r k hk h
    refine normal_of_round? (Nat.mul_pos (toRatio_pos _) (Nat.pos_of_ne_zero fun hzero => ?_)) h
    have hone := one_le_powerMagnitude hk
    rw [← toRatio_div, hzero, Nat.cast_zero, zero_div] at hone
    linarith
  unfold scale at h
  split at h
  · split at h
    · exact hmul h
    · split at h
      · cases h
        exact hm
      · cases h
  · split at h
    · exact hdiv (by omega) h
    · split at h
      · obtain ⟨small, -, h⟩ := Option.bind_eq_some_iff.mp h
        exact hdiv (by omega) h
      · cases h
        exact normal_zero

/-- The double of a numeral is normal. -/
theorem normal_of_double? {n : Numeral} {d : Double} (h : n.double? = some d) :
    d.magnitude.Normal := by
  obtain ⟨m, hm, h⟩ := Option.bind_eq_some_iff.mp h
  have hnormal : m.Normal := normal_of_round? Nat.one_pos hm
  split at h
  · obtain ⟨r, hr, h⟩ := Option.bind_eq_some_iff.mp h
    cases h
    exact normal_of_scale hnormal hr
  · simp only at h
    split at h
    · split at h
      · cases h
        exact normal_zero
      · cases h
    · obtain ⟨r, hr, h⟩ := Option.bind_eq_some_iff.mp h
      cases h
      exact normal_of_scale hnormal hr

end Numeral

end DataTree
