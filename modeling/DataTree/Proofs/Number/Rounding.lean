import DataTree.Number.Double
import Mathlib.Algebra.Order.Field.Power
import Mathlib.Algebra.Order.Field.Rat
import Mathlib.Tactic.FieldSimp
import Mathlib.Tactic.Linarith
import Mathlib.Tactic.NormNum
import Mathlib.Tactic.Positivity
import Mathlib.Tactic.Ring

/-!
# Rounding to binary floating point

A magnitude denotes a rational number.  Rounding a quotient keeps 53 bits of
it, or fewer next to zero, so what it gives is within the range of binary64;
and it is monotone, so a quotient below one that can be rounded can be rounded
too.

## Main definitions

* `Magnitude.value` — the number a magnitude denotes.
* `Magnitude.InRange` — whether the mantissa and the exponent are those of
  binary64.

## Main results

* `Magnitude.inRange_of_round?` — rounding stays in range.
* `Magnitude.exists_round?_of_le`, `Magnitude.value_le_of_round?` — rounding
  is monotone.
* `Magnitude.exists_div?` — dividing by a number that is at least one succeeds.
-/

namespace DataTree.Magnitude

/-- The number that a magnitude denotes. -/
def value (m : Magnitude) : ℚ := m.mantissa * 2 ^ m.exponent

/-- Whether a magnitude is one of binary64, normal or not. -/
structure InRange (m : Magnitude) : Prop where
  mantissa_lt : m.mantissa < 2 ^ 53
  le_exponent : minExponent ≤ m.exponent
  exponent_le : m.exponent ≤ maxExponent

theorem value_nonneg (m : Magnitude) : 0 ≤ m.value := by
  unfold value
  positivity

/-! ## Quotients -/

theorem shiftLeft_cast (n k : ℕ) : ((n <<< k : ℕ) : ℚ) = n * 2 ^ k := by
  rw [Nat.shiftLeft_eq]
  push_cast
  rfl

theorem zpow_of_nonneg (b : ℚ) {e : ℤ} (h : 0 ≤ e) : b ^ e = b ^ e.toNat := by
  rw [← zpow_natCast, Int.toNat_of_nonneg h]

theorem zpow_of_neg (b : ℚ) {e : ℤ} (h : ¬0 ≤ e) : b ^ e = (b ^ (-e).toNat)⁻¹ := by
  rw [← zpow_of_nonneg b (by omega), zpow_neg, inv_inv]

theorem toRatio_pos (m : Magnitude) : 0 < m.toRatio.2 := by
  unfold toRatio
  split
  · exact Nat.one_pos
  · rw [Nat.shiftLeft_eq]
    positivity

theorem toRatio_div (m : Magnitude) : (m.toRatio.1 : ℚ) / m.toRatio.2 = m.value := by
  unfold toRatio value
  split
  · rename_i he
    rw [shiftLeft_cast, zpow_of_nonneg 2 he, Nat.cast_one, div_one]
  · rename_i he
    rw [shiftLeft_cast, zpow_of_neg 2 he, Nat.cast_one, one_mul, div_eq_mul_inv]

theorem inUnits_pos {den : ℕ} (num : ℕ) (e : ℤ) (hden : 0 < den) :
    0 < (inUnits num den e).2 := by
  unfold inUnits
  split
  · rw [Nat.shiftLeft_eq]
    positivity
  · exact hden

theorem inUnits_div (num den : ℕ) (e : ℤ) :
    ((inUnits num den e).1 : ℚ) / (inUnits num den e).2 = num / den / 2 ^ e := by
  unfold inUnits
  split
  · rename_i he
    rw [shiftLeft_cast, zpow_of_nonneg 2 he, div_div]
  · rename_i he
    rw [shiftLeft_cast, zpow_of_neg 2 he, div_inv_eq_mul]
    ring

/-! ## The nearest integer -/

/-- Whether an integer is nearest to a number, and even if it is halfway. -/
structure Nearest (x : ℚ) (n : ℕ) : Prop where
  sub_le : n - 1 / 2 ≤ x
  le_add : x ≤ n + 1 / 2
  even_of_eq : x = n - 1 / 2 ∨ x = n + 1 / 2 → n % 2 = 0

theorem nearest_roundEven {den : ℕ} (num : ℕ) (hden : 0 < den) :
    Nearest (num / den) (roundEven num den) := by
  have hden' : (0 : ℚ) < den := by exact_mod_cast hden
  have hsplit : (num : ℚ) = den * (num / den : ℕ) + (num % den : ℕ) := by
    exact_mod_cast (Nat.div_add_mod num den).symm
  have hlt : ((num % den : ℕ) : ℚ) < den := by exact_mod_cast Nat.mod_lt num hden
  unfold roundEven
  simp only [Bool.or_eq_true, Bool.and_eq_true, decide_eq_true_eq]
  generalize num / den = q at hsplit
  generalize num % den = r at hsplit hlt
  split
  · rename_i hup
    have hge : (den : ℚ) ≤ 2 * r := by
      rcases hup with h | h
      · exact_mod_cast h.le
      · exact_mod_cast h.1.ge
    constructor <;> rw [Nat.cast_succ]
    · rw [le_div_iff₀ hden']
      linarith
    · rw [div_le_iff₀ hden']
      linarith
    · intro htie
      rw [div_eq_iff hden'.ne', div_eq_iff hden'.ne'] at htie
      have heq : 2 * r = den := by
        rcases htie with htie | htie
        · exact_mod_cast (by linarith : (2 * r : ℚ) = den)
        · linarith
      omega
  · rename_i hdown
    have hle : (2 * r : ℚ) ≤ den := by exact_mod_cast (by omega : 2 * r ≤ den)
    have hr : (0 : ℚ) ≤ r := r.cast_nonneg
    constructor
    · rw [le_div_iff₀ hden']
      linarith
    · rw [div_le_iff₀ hden']
      linarith
    · intro htie
      rw [div_eq_iff hden'.ne', div_eq_iff hden'.ne'] at htie
      have heq : 2 * r = den := by
        rcases htie with htie | htie
        · linarith
        · exact_mod_cast (by linarith : (2 * r : ℚ) = den)
      omega

/-- A greater number has no lesser nearest integer: two numbers halfway
between the same integers have the same even one. -/
theorem Nearest.le {x y : ℚ} {m n : ℕ} (hx : Nearest x m) (hy : Nearest y n) (h : x ≤ y) :
    m ≤ n := by
  by_contra hlt
  have hstep : (n : ℚ) + 1 ≤ m := by exact_mod_cast (by omega : n + 1 ≤ m)
  have hlow := hx.sub_le
  have hhigh := hy.le_add
  have hm : m % 2 = 0 := hx.even_of_eq (.inl (by linarith))
  have hn : n % 2 = 0 := hy.even_of_eq (.inr (by linarith))
  have hnext : m = n + 1 := by exact_mod_cast (by linarith : (m : ℚ) = n + 1)
  omega

/-! ## The exponent -/

theorem log2_bounds {n : ℕ} (h : 0 < n) :
    (2 : ℚ) ^ (n.log2 : ℤ) ≤ n ∧ (n : ℚ) < 2 ^ ((n.log2 : ℤ) + 1) := by
  constructor
  · rw [zpow_natCast]
    exact_mod_cast Nat.log2_self_le h.ne'
  · rw [← Nat.cast_succ, zpow_natCast]
    exact_mod_cast Nat.lt_log2_self

/-- The quotient of the logarithms is off by at most one. -/
theorem quotient_bounds {num den : ℕ} (hnum : 0 < num) (hden : 0 < den) :
    (2 : ℚ) ^ ((num.log2 : ℤ) - den.log2 - 1) ≤ num / den
      ∧ (num : ℚ) / den < 2 ^ ((num.log2 : ℤ) - den.log2 + 1) := by
  have hden' : (0 : ℚ) < den := by exact_mod_cast hden
  obtain ⟨hnumLow, hnumHigh⟩ := log2_bounds hnum
  obtain ⟨hdenLow, hdenHigh⟩ := log2_bounds hden
  generalize (num.log2 : ℤ) = a at *
  generalize (den.log2 : ℤ) = b at *
  constructor
  · rw [le_div_iff₀ hden']
    calc (2 : ℚ) ^ (a - b - 1) * den ≤ 2 ^ (a - b - 1) * 2 ^ (b + 1) := by gcongr
      _ = 2 ^ a := by rw [← zpow_add₀ two_ne_zero]; congr 1; ring
      _ ≤ num := hnumLow
  · rw [div_lt_iff₀ hden']
    calc (num : ℚ) < 2 ^ (a + 1) := hnumHigh
      _ = 2 ^ (a - b + 1) * 2 ^ b := by rw [← zpow_add₀ two_ne_zero]; congr 1; ring
      _ ≤ 2 ^ (a - b + 1) * den := by gcongr

theorem inUnits_lt_iff {den : ℕ} (num : ℕ) (e : ℤ) (hden : 0 < den) :
    (inUnits num den e).1 / (inUnits num den e).2 < 1 <<< 52
      ↔ (num : ℚ) / den < 2 ^ (e + 52) := by
  have hpos := inUnits_pos num e hden
  have hpos' : (0 : ℚ) < (inUnits num den e).2 := by exact_mod_cast hpos
  rw [Nat.div_lt_iff_lt_mul hpos, ← Nat.cast_lt (α := ℚ), Nat.cast_mul, ← div_lt_iff₀ hpos',
    inUnits_div, div_lt_iff₀ (by positivity), shiftLeft_cast, zpow_add₀ two_ne_zero, mul_comm]
  norm_num

/-- The exponent leaves 53 bits of a quotient, or fewer if it is the least
one. -/
theorem exponentFor_spec {num den : ℕ} (hnum : 0 < num) (hden : 0 < den) :
    minExponent ≤ exponentFor num den
      ∧ (num : ℚ) / den < 2 ^ (exponentFor num den + 53)
      ∧ (minExponent < exponentFor num den → 2 ^ (exponentFor num den + 52) ≤ (num : ℚ) / den) := by
  obtain ⟨hlow, hhigh⟩ := quotient_bounds hnum hden
  unfold exponentFor
  simp only [inUnits_lt_iff num _ hden]
  generalize (num.log2 : ℤ) - den.log2 = k at *
  have hbits : ∃ e : ℤ, (if (num : ℚ) / den < 2 ^ (k - 52 + 52) then k - 52 - 1 else k - 52) = e
      ∧ (num : ℚ) / den < 2 ^ (e + 53) ∧ 2 ^ (e + 52) ≤ (num : ℚ) / den := by
    split
    · rename_i hlt
      refine ⟨_, rfl, ?_, ?_⟩
      · convert hlt using 2
        ring
      · convert hlow using 2
        ring
    · rename_i hge
      refine ⟨_, rfl, ?_, not_lt.mp hge⟩
      convert hhigh using 2
      ring
  obtain ⟨e, he, hlt, hle⟩ := hbits
  rw [he]
  refine ⟨le_max_right _ _, hlt.trans_le ?_, fun hmax => ?_⟩
  · exact zpow_le_zpow_right₀ one_le_two (by omega)
  · rwa [max_eq_left (by omega)]

/-! ## Rounding -/

/-- A mantissa of at most 53 bits, or of one more for a power of two, with its
exponent. -/
def carried (m : ℕ) (e : ℤ) : Magnitude := if m = 1 <<< 53 then ⟨1 <<< 52, e + 1⟩ else ⟨m, e⟩

theorem value_carried (m : ℕ) (e : ℤ) : (carried m e).value = m * 2 ^ e := by
  unfold carried
  split
  · rename_i hm
    rw [hm, value, zpow_add_one₀ two_ne_zero, shiftLeft_cast, shiftLeft_cast]
    norm_num
    ring
  · rfl

/-- The mantissa of a rounded quotient. -/
def roundedMantissa (num den : ℕ) : ℕ :=
  let scaled := inUnits num den (exponentFor num den)
  roundEven scaled.1 scaled.2

theorem round?_eq {num : ℕ} (den : ℕ) (hnum : 0 < num) :
    round? num den
      = if maxExponent < (carried (roundedMantissa num den) (exponentFor num den)).exponent
        then none else some (carried (roundedMantissa num den) (exponentFor num den)) := by
  rw [round?, if_neg hnum.ne']
  rfl

theorem nearest_roundedMantissa (num : ℕ) {den : ℕ} (hden : 0 < den) :
    Nearest (num / den / 2 ^ exponentFor num den) (roundedMantissa num den) := by
  have h := nearest_roundEven (inUnits num den (exponentFor num den)).1
    (inUnits_pos num (exponentFor num den) hden)
  rwa [inUnits_div] at h

theorem roundedMantissa_le {num den : ℕ} (hnum : 0 < num) (hden : 0 < den) :
    roundedMantissa num den ≤ 2 ^ 53 := by
  obtain ⟨-, hlt, -⟩ := exponentFor_spec hnum hden
  have hnear := (nearest_roundedMantissa num hden).sub_le
  have hunits : (num : ℚ) / den / 2 ^ exponentFor num den < 2 ^ 53 := by
    rw [div_lt_iff₀ (by positivity)]
    rwa [zpow_add₀ two_ne_zero, mul_comm] at hlt
  have hcast : (roundedMantissa num den : ℚ) < (2 ^ 53 + 1 : ℕ) := by
    push_cast
    linarith
  exact Nat.lt_succ_iff.mp (by exact_mod_cast hcast)

theorem le_roundedMantissa {num den : ℕ} (hnum : 0 < num) (hden : 0 < den)
    (he : minExponent < exponentFor num den) : 2 ^ 52 ≤ roundedMantissa num den := by
  obtain ⟨-, -, hle⟩ := exponentFor_spec hnum hden
  have hnear := (nearest_roundedMantissa num hden).le_add
  have hunits : (2 : ℚ) ^ 52 ≤ num / den / 2 ^ exponentFor num den := by
    rw [le_div_iff₀ (by positivity)]
    have hle := hle he
    rwa [zpow_add₀ two_ne_zero, mul_comm] at hle
  have hcast : ((2 ^ 52 : ℕ) : ℚ) < (roundedMantissa num den + 1 : ℕ) := by
    push_cast
    linarith
  exact Nat.lt_succ_iff.mp (by exact_mod_cast hcast)

/-- The exponent grows with the quotient. -/
theorem exponentFor_mono {num den num' den' : ℕ} (hnum : 0 < num) (hden : 0 < den)
    (hnum' : 0 < num') (hden' : 0 < den') (h : (num : ℚ) / den ≤ num' / den') :
    exponentFor num den ≤ exponentFor num' den' := by
  by_contra hlt
  obtain ⟨hmin, hhigh, -⟩ := exponentFor_spec hnum' hden'
  obtain ⟨-, -, hlow⟩ := exponentFor_spec hnum hden
  have hpowers : (2 : ℚ) ^ (exponentFor num' den' + 53) ≤ 2 ^ (exponentFor num den + 52) :=
    zpow_le_zpow_right₀ one_le_two (by omega)
  exact absurd (h.trans_lt hhigh) (not_lt.mpr (hpowers.trans (hlow (by omega))))

/-- Rounding is monotone: at the same exponent since the nearest integers are,
and at a greater one since the mantissa has 53 bits there. -/
theorem rounded_mono {num den num' den' : ℕ} (hnum : 0 < num) (hden : 0 < den)
    (hnum' : 0 < num') (hden' : 0 < den') (h : (num : ℚ) / den ≤ num' / den') :
    (roundedMantissa num den : ℚ) * 2 ^ exponentFor num den
      ≤ roundedMantissa num' den' * 2 ^ exponentFor num' den' := by
  have hexp := exponentFor_mono hnum hden hnum' hden' h
  rcases eq_or_lt_of_le hexp with heq | hlt
  · have hnear := nearest_roundedMantissa num hden
    have hnear' := nearest_roundedMantissa num' hden'
    rw [← heq] at hnear' ⊢
    have hle : roundedMantissa num den ≤ roundedMantissa num' den' := hnear.le hnear' (by gcongr)
    gcongr
  · have hmin := (exponentFor_spec hnum hden).1
    have hbits : (roundedMantissa num den : ℚ) ≤ 2 ^ 53 := by
      exact_mod_cast roundedMantissa_le hnum hden
    have hbits' : (2 : ℚ) ^ 52 ≤ roundedMantissa num' den' := by
      exact_mod_cast le_roundedMantissa hnum' hden' (by omega)
    calc (roundedMantissa num den : ℚ) * 2 ^ exponentFor num den
        ≤ 2 ^ 53 * 2 ^ (exponentFor num' den' - 1) := by
          have hpowers := zpow_le_zpow_right₀ (one_le_two (α := ℚ))
            (by omega : exponentFor num den ≤ exponentFor num' den' - 1)
          gcongr
      _ = 2 ^ 52 * 2 ^ exponentFor num' den' := by
          rw [zpow_sub_one₀ two_ne_zero]
          ring
      _ ≤ roundedMantissa num' den' * 2 ^ exponentFor num' den' := by gcongr

/-! ## Range -/

theorem inRange_zero : zero.InRange := by
  refine ⟨?_, ?_, ?_⟩ <;> decide

theorem value_zero : zero.value = 0 := by
  rw [value, zero, Nat.cast_zero, zero_mul]

/-- Nothing in range reaches the next power of two. -/
theorem InRange.value_lt {m : Magnitude} (h : m.InRange) : m.value < 2 ^ 53 * 2 ^ maxExponent := by
  have hmantissa : (m.mantissa : ℚ) < 2 ^ 53 := by exact_mod_cast h.mantissa_lt
  have hpowers := zpow_le_zpow_right₀ (one_le_two (α := ℚ)) h.exponent_le
  rw [value]
  calc (m.mantissa : ℚ) * 2 ^ m.exponent < 2 ^ 53 * 2 ^ m.exponent := by gcongr
    _ ≤ 2 ^ 53 * 2 ^ maxExponent := by gcongr

/-- What rounding refuses does reach it. -/
theorem le_value_of_round?_eq_none {num den : ℕ} (hnum : 0 < num) (hden : 0 < den)
    (h : round? num den = none) :
    2 ^ 53 * 2 ^ maxExponent ≤ (roundedMantissa num den : ℚ) * 2 ^ exponentFor num den := by
  rw [round?_eq den hnum] at h
  split at h
  · rename_i hlarge
    unfold carried at hlarge
    split at hlarge
    · rename_i hcarry
      rw [hcarry, shiftLeft_cast, Nat.cast_one, one_mul]
      have hpowers := zpow_le_zpow_right₀ (one_le_two (α := ℚ)) (Int.lt_add_one_iff.mp hlarge)
      gcongr
    · have hlarge : maxExponent < exponentFor num den := hlarge
      have hmax : minExponent < maxExponent := by decide
      have hbits : (2 : ℚ) ^ 52 ≤ roundedMantissa num den := by
        exact_mod_cast le_roundedMantissa hnum hden (by omega)
      have hpowers := zpow_le_zpow_right₀ (one_le_two (α := ℚ)) (Int.add_one_le_iff.mpr hlarge)
      calc (2 : ℚ) ^ 53 * 2 ^ maxExponent = 2 ^ 52 * 2 ^ (maxExponent + 1) := by
            rw [zpow_add_one₀ two_ne_zero]
            ring
        _ ≤ (roundedMantissa num den : ℚ) * 2 ^ exponentFor num den := by gcongr
  · cases h

theorem inRange_carried {m : ℕ} {e : ℤ} (hm : m ≤ 2 ^ 53) (he : minExponent ≤ e)
    (hmax : (carried m e).exponent ≤ maxExponent) : (carried m e).InRange := by
  unfold carried at hmax ⊢
  split
  · rename_i hcarry
    rw [if_pos hcarry] at hmax
    exact ⟨show 1 <<< 52 < 2 ^ 53 by decide, Int.le_trans he (Int.le_of_lt (Int.lt_succ e)), hmax⟩
  · rename_i hcarry
    rw [if_neg hcarry] at hmax
    rw [Nat.shiftLeft_eq, one_mul] at hcarry
    exact ⟨lt_of_le_of_ne hm hcarry, he, hmax⟩

/-- Rounding stays in range. -/
theorem inRange_of_round? {num den : ℕ} {r : Magnitude} (hden : 0 < den)
    (h : round? num den = some r) : r.InRange := by
  rcases Nat.eq_zero_or_pos num with rfl | hnum
  · cases h
    exact inRange_zero
  · rw [round?_eq den hnum] at h
    split at h
    · cases h
    · rename_i hsmall
      cases h
      exact inRange_carried (roundedMantissa_le hnum hden) (exponentFor_spec hnum hden).1
        (not_lt.mp hsmall)

theorem value_of_round? {num den : ℕ} {r : Magnitude} (hnum : 0 < num)
    (h : round? num den = some r) :
    r.value = roundedMantissa num den * 2 ^ exponentFor num den := by
  rw [round?_eq den hnum] at h
  split at h
  · cases h
  · cases h
    exact value_carried _ _

theorem pos_of_div_le {num den num' den' : ℕ} (hnum : 0 < num) (hden : 0 < den)
    (hle : (num : ℚ) / den ≤ num' / den') : 0 < num' := by
  have hpos : (0 : ℚ) < num / den := by positivity
  rcases Nat.eq_zero_or_pos num' with rfl | hnum'
  · rw [Nat.cast_zero, zero_div] at hle
    linarith
  · exact hnum'

/-- A greater quotient is not rounded to less. -/
theorem value_le_of_round? {num den num' den' : ℕ} {r r' : Magnitude} (hden : 0 < den)
    (hden' : 0 < den') (hle : (num : ℚ) / den ≤ num' / den') (h : round? num den = some r)
    (h' : round? num' den' = some r') : r.value ≤ r'.value := by
  rcases Nat.eq_zero_or_pos num with rfl | hnum
  · cases h
    rw [value_zero]
    exact r'.value_nonneg
  · have hnum' := pos_of_div_le hnum hden hle
    rw [value_of_round? hnum h, value_of_round? hnum' h']
    exact rounded_mono hnum hden hnum' hden' hle

/-- A quotient is rounded if a greater one is. -/
theorem exists_round?_of_le {num den num' den' : ℕ} {r' : Magnitude} (hden : 0 < den)
    (hden' : 0 < den') (hle : (num : ℚ) / den ≤ num' / den') (h' : round? num' den' = some r') :
    ∃ r, round? num den = some r := by
  rcases Nat.eq_zero_or_pos num with rfl | hnum
  · exact ⟨zero, rfl⟩
  · have hnum' := pos_of_div_le hnum hden hle
    cases hround : round? num den with
    | some r => exact ⟨r, rfl⟩
    | none =>
        have hlarge := le_value_of_round?_eq_none hnum hden hround
        have hmono := rounded_mono hnum hden hnum' hden' hle
        have hsmall := (inRange_of_round? hden' h').value_lt
        rw [value_of_round? hnum' h'] at hsmall
        linarith

/-! ## Products and quotients -/

/-- The greatest magnitude in range. -/
def greatest : Magnitude := ⟨(1 <<< 53) - 1, maxExponent⟩

theorem InRange.value_le {m : Magnitude} (h : m.InRange) : m.value ≤ greatest.value := by
  have hmantissa : m.mantissa ≤ greatest.mantissa := Nat.le_sub_one_of_lt h.mantissa_lt
  have hpowers := zpow_le_zpow_right₀ (one_le_two (α := ℚ)) h.exponent_le
  exact mul_le_mul (Nat.cast_le.mpr hmantissa) hpowers (by positivity) (Nat.cast_nonneg _)

theorem mul_ratio (a b : Magnitude) :
    ((a.toRatio.1 * b.toRatio.1 : ℕ) : ℚ) / (a.toRatio.2 * b.toRatio.2 : ℕ)
      = a.value * b.value := by
  rw [← toRatio_div, ← toRatio_div, Nat.cast_mul, Nat.cast_mul, mul_div_mul_comm]

theorem div_ratio (a b : Magnitude) :
    ((a.toRatio.1 * b.toRatio.2 : ℕ) : ℚ) / (a.toRatio.2 * b.toRatio.1 : ℕ)
      = a.value / b.value := by
  rw [← toRatio_div, ← toRatio_div, Nat.cast_mul, Nat.cast_mul, div_div_div_eq]

theorem inRange_of_mul? {a b r : Magnitude} (h : a.mul? b = some r) : r.InRange :=
  inRange_of_round? (Nat.mul_pos a.toRatio_pos b.toRatio_pos) h

/-- A product can be rounded if one of greater factors can. -/
theorem exists_mul?_of_le {a b a' b' r' : Magnitude} (ha : a.value ≤ a'.value)
    (hb : b.value ≤ b'.value) (h : a'.mul? b' = some r') : ∃ r, a.mul? b = some r := by
  refine exists_round?_of_le (Nat.mul_pos a.toRatio_pos b.toRatio_pos)
    (Nat.mul_pos a'.toRatio_pos b'.toRatio_pos) ?_ h
  rw [mul_ratio, mul_ratio]
  exact mul_le_mul ha hb b.value_nonneg a'.value_nonneg

/-- What is in range stays so when it is divided by one or more. -/
theorem exists_div? {a b : Magnitude} (ha : a.InRange) (hb : 1 ≤ b.value) :
    ∃ r, a.div? b = some r ∧ r.InRange := by
  have hden : 0 < a.toRatio.2 * b.toRatio.1 := by
    refine Nat.mul_pos a.toRatio_pos (Nat.pos_of_ne_zero fun hzero => ?_)
    rw [← toRatio_div, hzero, Nat.cast_zero, zero_div] at hb
    linarith
  have hle : ((a.toRatio.1 * b.toRatio.2 : ℕ) : ℚ) / (a.toRatio.2 * b.toRatio.1 : ℕ)
      ≤ greatest.toRatio.1 / greatest.toRatio.2 := by
    rw [div_ratio, toRatio_div]
    exact (div_le_self a.value_nonneg hb).trans ha.value_le
  have hgreatest : round? greatest.toRatio.1 greatest.toRatio.2 = some greatest := by
    decide +kernel
  obtain ⟨r, hr⟩ := exists_round?_of_le hden greatest.toRatio_pos hle hgreatest
  exact ⟨r, hr, inRange_of_round? hden hr⟩

end DataTree.Magnitude
