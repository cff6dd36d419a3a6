import DataTree.Proofs.Json.RoundTrip
import DataTree.Proofs.Number.Normal

/-!
# Doubles read back

A double is written in the shortest digits that round to it, positionally or
with an exponent.  The text is a numeral and is read as one; its digits fit
64 bits, and where they are scaled up they are within those of the greatest
double, so the numeral denotes a double again.  It need not be the same one,
since the digits are rounded before they are scaled; a query rounds the exact
value, and so has the double that was written.

## Main definitions

* `Numeral.WellFormed` — a numeral as the grammar has it.
* `Numeral.Spells` — a numeral that denotes a double of given digits.

## Main results

* `Numeral.WellFormed.readsBack` — such a numeral reads back.
* `Numeral.Spells.nearest_eq` — digits in the interval of a double are that
  double in a query.
* `Double.exists_numeral` — a double is written as a numeral that denotes a
  double.
-/

namespace DataTree

open DataTree.Text

namespace Numeral

/-! ## Numerals of the grammar -/

/-- An exponent as the grammar has it. -/
structure Exponent.WellFormed (e : Exponent) : Prop where
  mark : e.mark = 'e' ∨ e.mark = 'E'
  sign : e.sign = none ∨ e.sign = some '+' ∨ e.sign = some '-'
  digits_ne_nil : e.digits ≠ []
  digits : ∀ c ∈ e.digits, c.isDigit = true

/-- A numeral as the grammar has it. -/
structure WellFormed (n : Numeral) : Prop where
  whole : IsWhole n.whole
  fraction : ∀ c ∈ n.fraction, c.isDigit = true
  exponent : ∀ e, n.exponent = some e → Exponent.WellFormed e

/-- The text of a fraction. -/
def fractionChars (ds : List Char) : List Char := if ds.isEmpty then [] else '.' :: ds

/-- The text of an exponent. -/
def exponentChars : Option Exponent → List Char
  | some e => Exponent.chars e
  | none => []

theorem chars_eq (n : Numeral) :
    n.chars = (if n.negative then ['-'] else [])
      ++ (n.whole ++ (fractionChars n.fraction ++ exponentChars n.exponent)) := by
  rw [chars, List.append_assoc, List.append_assoc]
  rfl

theorem readSign_append {sign : Option Char} (h : sign = none ∨ sign = some '+' ∨ sign = some '-')
    {ds : List Char} (hds : ∀ c ∈ ds.head?, c.isDigit = true) :
    readSign (sign.toList ++ ds) = (sign, ds) := by
  rcases h with rfl | rfl | rfl
  · cases ds with
    | nil => rfl
    | cons d ds =>
        have hd : d.isDigit = true := hds d rfl
        unfold readSign
        split
        · rename_i heq
          cases heq
          cases hd
        · rename_i heq
          cases heq
          cases hd
        · rfl
  · rfl
  · rfl

theorem readExponent_append {e : Option Exponent} (h : ∀ x, e = some x → Exponent.WellFormed x)
    {rest : List Char} (hrest : NotBefore continuesInteger rest) :
    readExponent (exponentChars e ++ rest) = some (e, rest) := by
  cases e with
  | none => exact readExponent_of_ends hrest
  | some e =>
      obtain ⟨hmark, hsign, hne, hdigits⟩ := h e rfl
      have hhead : ∀ c ∈ (e.digits ++ rest).head?, c.isDigit = true := by
        intro c hc
        cases hds : e.digits with
        | nil => exact absurd hds hne
        | cons d ds =>
            rw [hds] at hc
            cases hc
            exact hdigits c (hds ▸ List.mem_cons_self)
      have hends := notBefore_isDigit hrest
      have hchars : exponentChars (some e) ++ rest
          = e.mark :: (e.sign.toList ++ (e.digits ++ rest)) := by
        simp [exponentChars, Exponent.chars]
      rw [hchars, readExponent, if_pos (by simpa using hmark), readSign_append hsign hhead]
      simp only
      rw [takeWhile_append_of_notBefore hdigits hends, dropWhile_append_of_notBefore hdigits hends]
      split
      · rename_i hnil
        exact absurd hnil hne
      · rfl

theorem readFraction_append {ds rest : List Char} (hds : ∀ c ∈ ds, c.isDigit = true)
    (hpoint : rest.head? ≠ some '.') (hrest : NotBefore Char.isDigit rest) :
    readFraction (fractionChars ds ++ rest) = some (ds, rest) := by
  cases ds with
  | nil =>
      show readFraction rest = _
      unfold readFraction
      split
      · exact absurd rfl hpoint
      · rfl
  | cons d ds =>
      show readFraction ('.' :: (d :: ds ++ rest)) = _
      rw [readFraction, takeWhile_append_of_notBefore hds hrest,
        dropWhile_append_of_notBefore hds hrest]

/-- What follows the digits of a numeral does not go on with them. -/
theorem exponentChars_append {e : Option Exponent} (h : ∀ x, e = some x → Exponent.WellFormed x)
    {rest : List Char} (hrest : NotBefore continuesInteger rest) :
    (exponentChars e ++ rest).head? ≠ some '.'
      ∧ NotBefore Char.isDigit (exponentChars e ++ rest) := by
  cases e with
  | none =>
      refine ⟨fun hpoint => ?_, notBefore_isDigit hrest⟩
      have hends := hrest '.' hpoint
      cases hends
  | some e =>
      have hmark := (h e rfl).mark
      have hchars : exponentChars (some e) ++ rest
          = e.mark :: (e.sign.toList ++ (e.digits ++ rest)) := by
        simp [exponentChars, Exponent.chars]
      rw [hchars, notBefore_cons, List.head?_cons]
      rcases hmark with hmark | hmark <;> rw [hmark] <;> decide

theorem fractionChars_append (ds : List Char) {rest : List Char}
    (hrest : NotBefore Char.isDigit rest) :
    NotBefore Char.isDigit (fractionChars ds ++ rest) := by
  cases ds with
  | nil => exact hrest
  | cons d ds => exact (notBefore_cons _ _ _).mpr rfl

theorem IsWhole.head? {ds : List Char} (h : IsWhole ds) :
    ∃ c, ds.head? = some c ∧ c.isDigit = true := by
  rcases h with rfl | ⟨c, cs, rfl, -, hdigit, -⟩
  · exact ⟨'0', rfl, rfl⟩
  · exact ⟨c, rfl, hdigit⟩

/-- A numeral of the grammar reads back. -/
theorem WellFormed.readsBack {n : Numeral} (h : n.WellFormed) : n.ReadsBack := by
  obtain ⟨c, hc, hdigit⟩ := h.whole.head?
  constructor
  · rw [chars_eq]
    cases n.negative with
    | true => exact ⟨'-', rfl, .inl rfl⟩
    | false => exact ⟨c, by simp [hc], .inr hdigit⟩
  · intro rest hrest
    obtain ⟨hpoint, hexponent⟩ := exponentChars_append h.exponent hrest
    have hwhole := readWhole_of_isWhole h.whole (fractionChars_append n.fraction hexponent)
    have hfraction := readFraction_append h.fraction hpoint hexponent
    have hread := readExponent_append h.exponent hrest
    have hminus :
        (n.whole ++ (fractionChars n.fraction ++ (exponentChars n.exponent ++ rest))).head?
          ≠ some '-' := by
      rw [List.head?_append, hc]
      rintro ⟨⟩
      cases hdigit
    obtain ⟨negative, whole, fraction, exponent⟩ := n
    rw [chars_eq, List.append_assoc, List.append_assoc, List.append_assoc]
    unfold read
    cases negative with
    | true =>
        simp only [if_true, List.singleton_append, List.head?_cons, decide_true,
          List.drop_succ_cons, List.drop_zero, hwhole, hfraction, hread, Option.bind_eq_bind,
          Option.bind_some]
        rfl
    | false =>
        simp only [Bool.false_eq_true, if_false, List.nil_append, hminus, decide_false, hwhole,
          hfraction, hread, Option.bind_eq_bind, Option.bind_some]
        rfl

/-! ## Digits in a numeral -/

theorem digits_isDigit (k : ℕ) : ∀ c ∈ Decimal.digits k, c.isDigit = true :=
  fun _ => Decimal.isDigit_of_mem_digits

theorem natOfDigits_zeros_append (n : ℕ) (ds : List Char) :
    Decimal.natOfDigits (List.replicate n '0' ++ ds) = Decimal.natOfDigits ds := by
  rw [Decimal.natOfDigits, Nat.ofDigitChars_append, Nat.ofDigitChars_replicate_zero, Nat.mul_zero]
  rfl

theorem natOfDigits_append_zeros (n : ℕ) (ds : List Char) :
    Decimal.natOfDigits (ds ++ List.replicate n '0') = Nat.pow 10 n * Decimal.natOfDigits ds := by
  rw [Decimal.natOfDigits, Nat.ofDigitChars_append, Nat.ofDigitChars_replicate_zero]
  rfl

/-- A numeral with a fraction or an exponent that is written for digits in
front of a power of ten: its own digits fit 64 bits, and they are those digits
unless they are scaled down, to the same number. -/
structure Spells (n : Numeral) (negative : Bool) (k : ℕ) (e : ℤ) : Prop where
  wellFormed : n.WellFormed
  sign : n.negative = negative
  not_integer : n.fraction ≠ [] ∨ n.exponent ≠ none
  fits : Decimal.natOfDigits (n.whole ++ n.fraction) < UInt64.size
  written_lt : n.written < exponentBound
  same : 0 ≤ n.power → Decimal.natOfDigits (n.whole ++ n.fraction) = k ∧ n.power = e
  exact : (Decimal.natOfDigits (n.whole ++ n.fraction) : ℚ) * 10 ^ n.power = k * 10 ^ e

theorem Spells.not_isInteger {n : Numeral} {negative : Bool} {k : ℕ} {e : ℤ}
    (h : n.Spells negative k e) : (n.fraction.isEmpty && n.exponent.isNone) = false := by
  rcases h.not_integer with hfraction | hexponent
  · simp [hfraction]
  · cases hexp : n.exponent with
    | none => exact absurd hexp hexponent
    | some e => simp

/-- Such a numeral denotes a double. -/
theorem Spells.exists_value {n : Numeral} {negative : Bool} {k : ℕ} {e : ℤ}
    (h : n.Spells negative k e)
    (hk : WithinGreatest k e) : ∃ d, n.value? = some (.double d) ∧ d.magnitude.InRange := by
  have hup : 0 ≤ n.power →
      WithinGreatest (Decimal.natOfDigits (n.whole ++ n.fraction)) n.power := by
    intro hpos
    obtain ⟨hdigits, hpower⟩ := h.same hpos
    rwa [hdigits, hpower]
  obtain ⟨d, hd, hrange⟩ := exists_double? h.fits h.written_lt hup
  refine ⟨d, ?_, hrange⟩
  rw [value?, hd]
  simp [h.not_isInteger]

/-! ## Digits in a layout -/

/-- The digits of a number other than zero start with another digit. -/
theorem exists_digits {k : ℕ} (hk : 0 < k) : ∃ c cs, Decimal.digits k = c :: cs ∧ c ≠ '0'
    ∧ c.isDigit = true ∧ ∀ d ∈ cs, d.isDigit = true := by
  rcases Decimal.digits_eq k with hzero | hdigits
  · have hvalue := Decimal.natOfDigits_digits k
    rw [hzero] at hvalue
    exact absurd hvalue hk.ne
  · exact hdigits

section Fraction

variable {negative : Bool} {whole fraction : List Char} {k : ℕ} {e : ℤ}

theorem chars_of_fraction (hne : fraction ≠ []) :
    chars ⟨negative, whole, fraction, none⟩
      = (if negative then ['-'] else []) ++ (whole ++ '.' :: fraction) := by
  simp [chars, hne]

/-- With a fraction and no exponent, digits are scaled down. -/
theorem spells_of_fraction (hwhole : IsWhole whole) (hdigits : ∀ c ∈ fraction, c.isDigit = true)
    (hne : fraction ≠ []) (hfits : Decimal.natOfDigits (whole ++ fraction) < UInt64.size)
    (hexact : (Decimal.natOfDigits (whole ++ fraction) : ℚ) * 10 ^ (-(fraction.length : ℤ))
      = k * 10 ^ e) :
    Spells ⟨negative, whole, fraction, none⟩ negative k e := by
  have hpower : power ⟨negative, whole, fraction, none⟩ = -(fraction.length : ℤ) := zero_sub _
  refine ⟨⟨hwhole, hdigits, by rintro x ⟨⟩⟩, rfl, .inl hne, hfits,
    (by decide : (0 : ℤ) < exponentBound), fun hpos => ?_, hpower ▸ hexact⟩
  have hlength := List.length_pos_of_ne_nil hne
  rw [hpower] at hpos
  omega

theorem isDigit_of_mem_zeros_append {zeros : ℕ} {ds : List Char}
    (h : ∀ d ∈ ds, d.isDigit = true) : ∀ d ∈ List.replicate zeros '0' ++ ds, d.isDigit = true := by
  intro d hd
  rcases List.mem_append.mp hd with hd | hd
  · rw [List.eq_of_mem_replicate hd]
    rfl
  · exact h d hd

/-- Digits behind a zero and the point. -/
theorem exists_behind_point (hfits : k < UInt64.size) (zeros : ℕ)
    (he : e = -((zeros + (Decimal.digits k).length : ℕ) : ℤ)) :
    ∃ n : Numeral, n.Spells negative k e ∧ n.chars = (if negative then ['-'] else [])
      ++ ('0' :: '.' :: List.replicate zeros '0' ++ Decimal.digits k) := by
  have hne : List.replicate zeros '0' ++ Decimal.digits k ≠ [] := by
    simp [Decimal.digits_ne_nil]
  have hsize :
      Decimal.natOfDigits (['0'] ++ (List.replicate zeros '0' ++ Decimal.digits k)) = k := by
    rw [← List.replicate_one, natOfDigits_zeros_append, natOfDigits_zeros_append,
      Decimal.natOfDigits_digits]
  refine ⟨⟨negative, ['0'], List.replicate zeros '0' ++ Decimal.digits k, none⟩,
    spells_of_fraction (.inl rfl) (isDigit_of_mem_zeros_append (digits_isDigit k)) hne
      (hsize.symm ▸ hfits) ?_, chars_of_fraction hne⟩
  rw [hsize, he, List.length_append, List.length_replicate]

/-- Digits in front of zeros and the point. -/
theorem exists_before_zeros (hk : 0 < k) {zeros : ℕ} (he : e = zeros)
    (hlength : (Decimal.digits k).length + zeros ≤ 16) :
    ∃ n : Numeral, n.Spells negative k e ∧ n.chars = (if negative then ['-'] else [])
      ++ (Decimal.digits k ++ List.replicate zeros '0' ++ ['.', '0']) := by
  have hsize : Nat.pow 10 17 < UInt64.size := by decide
  obtain ⟨c, cs, hdigits, hc, hdigit, hall⟩ := exists_digits hk
  have hwhole : IsWhole (Decimal.digits k ++ List.replicate zeros '0') := by
    refine .inr ⟨c, cs ++ List.replicate zeros '0', by rw [hdigits]; rfl, hc, hdigit, ?_⟩
    intro d hd
    exact isDigit_of_mem_zeros_append hall d (List.mem_append.mpr (List.mem_append.mp hd).symm)
  have hvalue : Decimal.natOfDigits (Decimal.digits k ++ List.replicate zeros '0' ++ ['0'])
      = Nat.pow 10 (zeros + 1) * k := by
    rw [List.append_assoc, ← List.replicate_succ', natOfDigits_append_zeros,
      Decimal.natOfDigits_digits]
  refine ⟨⟨negative, Decimal.digits k ++ List.replicate zeros '0', ['0'], none⟩,
    spells_of_fraction hwhole (List.forall_mem_singleton.mpr rfl) (by decide) ?_ ?_, ?_⟩
  · obtain ⟨j, hj, -, hlt⟩ := exists_length_digits hk
    rw [hvalue]
    have hpow : Nat.pow 10 (zeros + 1) * k < Nat.pow 10 17 := by
      calc Nat.pow 10 (zeros + 1) * k < 10 ^ (zeros + 1) * 10 ^ (j + 1) :=
            Nat.mul_lt_mul_of_pos_left hlt (pow_ten_pos _)
        _ = 10 ^ (zeros + 1 + (j + 1)) := (Nat.pow_add 10 _ _).symm
        _ ≤ 10 ^ 17 := Nat.pow_le_pow_right (by decide) (by omega)
    exact hpow.trans hsize
  · rw [hvalue, he, Nat.cast_mul, cast_pow_ten, pow_succ, zpow_natCast, List.length_singleton]
    norm_num
    ring
  · rw [chars_of_fraction (by decide), List.append_assoc]

/-- Digits on both sides of the point. -/
theorem exists_around_point (hk : 0 < k) (hfits : k < UInt64.size) {count : ℕ}
    (hcount : count + 1 < (Decimal.digits k).length)
    (he : e = -(((Decimal.digits k).length - (count + 1) : ℕ) : ℤ)) :
    ∃ n : Numeral, n.Spells negative k e ∧ n.chars = (if negative then ['-'] else [])
      ++ ((Decimal.digits k).take (count + 1) ++ '.' :: (Decimal.digits k).drop (count + 1)) := by
  obtain ⟨c, cs, hdigits, hc, hdigit, hall⟩ := exists_digits hk
  have hwhole : IsWhole ((Decimal.digits k).take (count + 1)) := by
    refine .inr ⟨c, cs.take count, by rw [hdigits]; rfl, hc, hdigit, ?_⟩
    exact fun d hd => hall d (List.mem_of_mem_take hd)
  have hne : (Decimal.digits k).drop (count + 1) ≠ [] := by
    rw [ne_eq, List.drop_eq_nil_iff]
    exact not_le.mpr hcount
  refine ⟨⟨negative, (Decimal.digits k).take (count + 1),
      (Decimal.digits k).drop (count + 1), none⟩,
    spells_of_fraction hwhole ?_ hne ?_ ?_, chars_of_fraction hne⟩
  · exact fun d hd => digits_isDigit k d (List.mem_of_mem_drop hd)
  · rw [List.take_append_drop, Decimal.natOfDigits_digits]
    exact hfits
  · rw [List.take_append_drop, Decimal.natOfDigits_digits, List.length_drop, he]

end Fraction

/-- Digits that are written positionally. -/
theorem exists_positional {k : ℕ} {e : ℤ} (hk : 0 < k) (hcount : k ≤ Nat.pow 10 17)
    (hleading : (DecimalDigits.mk (Decimal.digits k) e).leading < 16) (negative : Bool) :
    ∃ n : Numeral, n.Spells negative k e
      ∧ n.chars = (if negative then ['-'] else []) ++ Layout.positional ⟨Decimal.digits k, e⟩ := by
  have hfits : k < UInt64.size := hcount.trans_lt (by decide)
  unfold Layout.positional
  obtain ⟨leading, heq⟩ : ∃ leading, (DecimalDigits.mk (Decimal.digits k) e).leading = leading :=
    ⟨_, rfl⟩
  rw [heq] at hleading ⊢
  rw [DecimalDigits.leading] at heq
  simp only at heq ⊢
  by_cases hneg : leading < 0
  · rw [if_pos hneg]
    exact exists_behind_point hfits _ (by omega)
  rw [if_neg hneg]
  by_cases hlength : (Decimal.digits k).length ≤ leading.toNat + 1
  · rw [if_pos hlength]
    exact exists_before_zeros hk (by omega) (by omega)
  · rw [if_neg hlength]
    exact exists_around_point hk hfits (not_le.mp hlength) (by omega)

theorem padded_one (n : ℕ) : padded 1 n = Decimal.digits n := by
  have hlength : 0 < (Decimal.digits n).length :=
    List.length_pos_of_ne_nil (Decimal.digits_ne_nil n)
  rw [padded, Nat.sub_eq_zero_of_le hlength]
  rfl

/-- The exponent that an integer is written as. -/
def exponentOf (p : ℤ) : Exponent :=
  ⟨'e', some (if p < 0 then '-' else '+'), Decimal.digits p.natAbs⟩

theorem wellFormed_exponentOf (p : ℤ) : Exponent.WellFormed (exponentOf p) := by
  refine ⟨.inl rfl, .inr ?_, Decimal.digits_ne_nil _, digits_isDigit _⟩
  rw [exponentOf]
  split
  · exact .inr rfl
  · exact .inl rfl

theorem written_exponentOf {negative : Bool} {whole fraction : List Char} (p : ℤ) :
    written ⟨negative, whole, fraction, some (exponentOf p)⟩ = p := by
  by_cases hneg : p < 0
  · simp only [written, exponentOf, Decimal.natOfDigits_digits, if_pos hneg, if_true]
    omega
  · have hplus : ¬some '+' = some '-' := by decide
    simp only [written, exponentOf, Decimal.natOfDigits_digits, if_neg hneg, if_neg hplus]
    omega

/-- Nothing within the digits of the greatest double has an exponent above
308. -/
theorem WithinGreatest.exponent_le {k : ℕ} {e : ℤ} (hk : 0 < k) (h : WithinGreatest k e) :
    e ≤ 308 := by
  by_contra hlt
  have hpow : Nat.pow 10 17 ≤ Nat.pow 10 (e - 292).toNat :=
    Nat.pow_le_pow_right (by decide) (by omega)
  have hle := (Nat.le_mul_of_pos_left _ hk).trans (h.size (by omega))
  rw [show Nat.pow 10 17 = 100000000000000000 from rfl] at hpow
  omega

/-- Digits that are written with an exponent. -/
theorem exists_scientific {k : ℕ} {e : ℤ} (hk : 0 < k) (hwithin : WithinGreatest k e)
    (negative : Bool) :
    ∃ n : Numeral, n.Spells negative k e ∧ n.chars
      = (if negative then ['-'] else []) ++ Double.jsonLayout.scientific ⟨Decimal.digits k, e⟩ := by
  have hsize : Nat.pow 10 17 < UInt64.size := by decide
  have hvalue := Decimal.natOfDigits_digits k
  have hexp := hwithin.exponent_le hk
  obtain ⟨c, cs, hdigits, hc, hdigit, hall⟩ := exists_digits hk
  obtain ⟨j, hj, hlow, -⟩ := exists_length_digits hk
  have hj' : j ≤ 17 := (Nat.pow_le_pow_iff_right (by decide)).mp (hlow.trans hwithin.count)
  have hlength : cs.length = j := by
    rw [hdigits, List.length_cons] at hj
    omega
  have hleading : (DecimalDigits.mk (Decimal.digits k) e).leading = e + cs.length := by
    rw [DecimalDigits.leading, hj, hlength]
    push_cast
    ring
  have hpower : power ⟨negative, [c], cs, some (exponentOf (e + cs.length))⟩ = e := by
    rw [power, written_exponentOf, add_sub_cancel_right]
  refine ⟨⟨negative, [c], cs, some (exponentOf (e + cs.length))⟩,
    ⟨⟨?_, hall, ?_⟩, rfl, ?_, ?_, ?_, ?_, ?_⟩, ?_⟩
  · exact .inr ⟨c, [], rfl, hc, hdigit, by simp⟩
  · rintro x ⟨⟩
    exact wellFormed_exponentOf _
  · exact .inr (by simp)
  · rw [List.singleton_append, ← hdigits, hvalue]
    exact hwithin.count.trans_lt hsize
  · rw [written_exponentOf, exponentBound]
    have hbound : ((1 <<< 31 : ℕ) : ℤ) = 2147483648 := rfl
    omega
  · exact fun _ => ⟨by rw [List.singleton_append, ← hdigits, hvalue], hpower⟩
  · rw [hpower, List.singleton_append, ← hdigits, hvalue]
  · rw [Layout.scientific, hleading, hdigits]
    simp only [Double.jsonLayout, padded_one]
    cases cs with
    | nil => simp [chars, Exponent.chars, exponentOf]
    | cons d ds => simp [chars, Exponent.chars, exponentOf]

/-! ## The double of a numeral in a query -/

theorem two_zpow_le (j : ℕ) : (2 : ℚ) ^ (3 * j : ℤ) ≤ 10 ^ (j : ℤ) := by
  rw [zpow_mul, zpow_natCast, zpow_natCast]
  exact pow_le_pow_left₀ (by norm_num) (by norm_num) j

/-- Digits whose value is about that of a double have at most 400 decimal places. -/
theorem places_bounds {size : ℕ} (hsize : 0 < size) {p : ℤ}
    (hlow : (2 : ℚ) ^ (-1075 : ℤ) ≤ size * 10 ^ p)
    (hhigh : (size : ℚ) * 10 ^ p ≤ 2 ^ (1024 : ℤ)) :
    -placesBound ≤ p + (Decimal.digits size).length
      ∧ p + (Decimal.digits size).length ≤ placesBound := by
  obtain ⟨j, hj, hjlow, hjhigh⟩ := exists_length_digits hsize
  have hten : (1 : ℚ) < 10 := by norm_num
  have hunit : (0 : ℚ) < 10 ^ p := by positivity
  rw [hj, placesBound, Nat.cast_succ]
  constructor
  · have hvalue : (size : ℚ) * 10 ^ p < 10 ^ (p + (j + 1)) := by
      rw [add_comm p, zpow_add₀ (by norm_num), mul_lt_mul_iff_left₀ hunit, ← Nat.cast_succ,
        zpow_natCast]
      exact_mod_cast hjhigh
    have hsmall : (10 : ℚ) ^ (-(359 : ℕ) : ℤ) ≤ 2 ^ (-1075 : ℤ) := by
      refine le_trans ?_
        (zpow_le_zpow_right₀ one_le_two (by decide : -(3 * ((359 : ℕ) : ℤ)) ≤ -1075))
      rw [zpow_neg, zpow_neg]
      exact inv_anti₀ (by positivity) (two_zpow_le 359)
    have hexponents := (zpow_lt_zpow_iff_right₀ hten).mp ((hsmall.trans hlow).trans_lt hvalue)
    omega
  · have hvalue : (10 : ℚ) ^ (p + j) ≤ size * 10 ^ p := by
      rw [add_comm p, zpow_add₀ (by norm_num), mul_le_mul_iff_left₀ hunit, zpow_natCast]
      exact_mod_cast hjlow
    have hlarge : (2 : ℚ) ^ (1024 : ℤ) ≤ 10 ^ ((342 : ℕ) : ℤ) :=
      (zpow_le_zpow_right₀ one_le_two (by decide : 1024 ≤ 3 * ((342 : ℕ) : ℤ))).trans
        (two_zpow_le 342)
    have hexponents := (zpow_le_zpow_iff_right₀ hten).mp ((hvalue.trans hhigh).trans hlarge)
    omega

theorem nearestDouble_def (n : Numeral) : n.nearestDouble
    = let size := Decimal.natOfDigits (n.whole ++ n.fraction)
      let places := n.power + (Decimal.digits size).length
      if size = 0 || places < -placesBound then .double ⟨n.negative, .zero⟩
      else if placesBound < places then .infinite n.negative
      else
        match (if 0 ≤ n.power then Magnitude.round? (size * Nat.pow 10 n.power.toNat) 1
          else Magnitude.round? size (Nat.pow 10 (-n.power).toNat)) with
        | some m => .double ⟨n.negative, m⟩
        | none => .infinite n.negative := rfl

/-- A numeral that is neither zero nor far out of range is the double that its value is
rounded to. -/
theorem nearestDouble_eq {n : Numeral} {m : Magnitude}
    (hsize : 0 < Decimal.natOfDigits (n.whole ++ n.fraction))
    (hlow : -placesBound
      ≤ n.power + (Decimal.digits (Decimal.natOfDigits (n.whole ++ n.fraction))).length)
    (hhigh : n.power + (Decimal.digits (Decimal.natOfDigits (n.whole ++ n.fraction))).length
      ≤ placesBound)
    (hround : Magnitude.round? (Decimal.natOfDigits (n.whole ++ n.fraction)
      * (powerOfTen n.power).1) (powerOfTen n.power).2 = some m) :
    n.nearestDouble = .double ⟨n.negative, m⟩ := by
  rw [nearestDouble_def]
  simp only
  rw [if_neg (by simp [hsize.ne', hlow]), if_neg (not_lt.mpr hhigh)]
  rw [powerOfTen] at hround
  by_cases hpower : 0 ≤ n.power
  · rw [if_pos hpower] at hround ⊢
    rw [hround]
  · rw [if_neg hpower, Nat.mul_one] at hround
    rw [if_neg hpower, hround]

/-- A numeral that spells digits in the interval of a normal magnitude is the double of
that magnitude in a query. -/
theorem Spells.nearest_eq {n : Numeral} {negative : Bool} {k : ℕ} {e : ℤ} {m : Magnitude}
    (h : n.Spells negative k e) (hk : 0 < k) (hm : m.Normal) (hpos : 0 < m.mantissa)
    (hholds : m.interval.holds e k = true) : n.nearest = .double ⟨negative, m⟩ := by
  have hvalue : (0 : ℚ) < k * 10 ^ e := by positivity
  have hexact := h.exact
  have hsize : 0 < Decimal.natOfDigits (n.whole ++ n.fraction) := by
    refine Nat.pos_of_ne_zero fun hzero => ?_
    rw [hzero, Nat.cast_zero, zero_mul] at hexact
    exact hvalue.ne hexact
  obtain ⟨hlow, hhigh⟩ := Magnitude.bounds_of_holds hm.toInRange hpos hholds
  obtain ⟨hplaces, hplaces'⟩ := places_bounds hsize (hexact ▸ hlow) (hexact ▸ hhigh)
  have hnearest : n.nearest = n.nearestDouble := by simp [nearest, h.not_isInteger]
  have hround := Magnitude.round?_of_holds hm hpos (powerOfTen_pos n.power).2
    (by rw [Nat.cast_mul, mul_div_assoc, powerOfTen_div, hexact]) hholds
  rw [hnearest, nearestDouble_eq hsize hplaces hplaces' hround, h.sign]

end Numeral

namespace Double

/-- A double is written as a numeral that reads back and denotes a double, and that is
the same double in a query. -/
theorem exists_numeral {d : Double} (h : d.magnitude.InRange) :
    ∃ n : Numeral, n.ReadsBack ∧ n.chars = d.jsonChars
      ∧ (∃ d', n.value? = some (.double d') ∧ d'.magnitude.InRange)
      ∧ (d.magnitude.Normal → n.nearest = .double d) := by
  unfold jsonChars
  by_cases hzero : d.magnitude.isZero = true
  · rw [if_pos hzero]
    have hsize : Decimal.natOfDigits (['0'] ++ ['0']) = 0 := rfl
    have hspells : Numeral.Spells ⟨d.negative, ['0'], ['0'], none⟩ d.negative 0 0 :=
      Numeral.spells_of_fraction (.inl rfl) (List.forall_mem_singleton.mpr rfl) (by decide)
        (by decide) (by rw [hsize, Nat.cast_zero, zero_mul, zero_mul])
    refine ⟨_, hspells.wellFormed.readsBack, Numeral.chars_of_fraction (by decide),
      hspells.exists_value ⟨by decide, by decide⟩, fun hnormal => ?_⟩
    have hmagnitude := hnormal.eq_zero (of_decide_eq_true hzero)
    obtain ⟨negative, magnitude⟩ := d
    cases hmagnitude
    rfl
  · rw [if_neg hzero]
    have hpos : 0 < d.magnitude.mantissa := by
      rw [Magnitude.isZero, decide_eq_true_eq] at hzero
      exact Nat.pos_of_ne_zero hzero
    obtain ⟨k, e, hshortest, hk, hwithin, hholds⟩ := exists_shortest h hpos
    have hspelled : ∃ n : Numeral, n.Spells d.negative k e ∧ n.chars
        = (if d.negative then ['-'] else []) ++ jsonLayout.chars ⟨Decimal.digits k, e⟩ := by
      rw [Layout.chars]
      by_cases hplaces : (jsonLayout.low ≤ (DecimalDigits.mk (Decimal.digits k) e).leading
          && (DecimalDigits.mk (Decimal.digits k) e).leading < jsonLayout.high) = true
      · rw [if_pos hplaces]
        rw [Bool.and_eq_true, decide_eq_true_eq, decide_eq_true_eq] at hplaces
        exact Numeral.exists_positional hk hwithin.count hplaces.2 d.negative
      · rw [if_neg hplaces]
        exact Numeral.exists_scientific hk hwithin d.negative
    obtain ⟨n, hspells, hchars⟩ := hspelled
    rw [hshortest]
    exact ⟨n, hspells.wellFormed.readsBack, hchars, hspells.exists_value hwithin,
      fun hnormal => hspells.nearest_eq hk hnormal hpos hholds⟩

end Double

end DataTree
