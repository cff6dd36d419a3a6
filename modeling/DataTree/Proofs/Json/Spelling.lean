import DataTree.Json.Document
import DataTree.Proofs.Text.Runs

/-!
# Strings and integers in JSON

Strings and integers are written in one spelling each, and are read from it
in front of any text that cannot extend it: a string ends with its quote, an
integer where neither a digit nor a fraction nor an exponent follows.

## Main results

* `readSpelling_escape`, `decode?_escape` — a string reads back.
* `read_ofInt`, `value?_ofInt` — an integer reads back.
-/

namespace DataTree

open DataTree.Text

namespace Json

/-! ## Strings -/

private theorem isHex_control : ∀ n < 32,
    (isHex '0' && isHex (hexDigit (n / 16)) && isHex (hexDigit (n % 16))) = true := by
  decide

private theorem not_surrogate_control : ∀ n < 32,
    isHighSurrogate (natOfHex ['0', '0', hexDigit (n / 16), hexDigit (n % 16)]) = false
      ∧ isLowSurrogate (natOfHex ['0', '0', hexDigit (n / 16), hexDigit (n % 16)]) = false := by
  decide

/-- What can be said of the spelling of one character: it is a letter behind
a backslash, a code unit, or the character itself. -/
inductive EscapedAs (c : Char) : List Char → Prop where
  | letter {l : Char} : l ≠ 'u' → Document.isEscapeLetter l = true → EscapedAs c ['\\', l]
  | unit : c.toNat < 32 → EscapedAs c
      ['\\', 'u', '0', '0', hexDigit (c.toNat / 16), hexDigit (c.toNat % 16)]
  | plain : c ≠ '"' → c ≠ '\\' → ¬c.toNat < 32 → EscapedAs c [c]

theorem escapedAs_escapeChar (c : Char) : EscapedAs c (escapeChar c) := by
  unfold escapeChar
  split
  · exact .letter (by decide) (by decide)
  split
  · exact .letter (by decide) (by decide)
  split
  · exact .letter (by decide) (by decide)
  split
  · exact .letter (by decide) (by decide)
  split
  · exact .letter (by decide) (by decide)
  split
  · exact .letter (by decide) (by decide)
  split
  · exact .letter (by decide) (by decide)
  split
  · rename_i hcontrol
    exact .unit hcontrol
  · rename_i hquote hbackslash _ _ _ _ _ hcontrol
    exact .plain hquote hbackslash hcontrol

theorem pairedFrom_escapeChar (c : Char) (rest : List Char) :
    pairedFrom false (escapeChar c ++ rest) = pairedFrom false rest := by
  have h := escapedAs_escapeChar c
  generalize escapeChar c = w at h ⊢
  cases h with
  | @letter l hu _ =>
      show pairedFrom false ('\\' :: l :: rest) = _
      rw [pairedFrom.eq_def]
      split
      · rename_i heq
        cases heq
        exact absurd rfl hu
      · rename_i heq
        cases heq
        rfl
      · rename_i hne heq
        cases heq
        exact absurd rfl (hne l rest rfl)
      · rename_i heq
        cases heq
  | unit hcontrol =>
      obtain ⟨hhigh, hlow⟩ := not_surrogate_control c.toNat hcontrol
      show pairedFrom false ('\\' :: 'u' :: '0' :: '0' :: hexDigit (c.toNat / 16)
        :: hexDigit (c.toNat % 16) :: rest) = _
      simp only [pairedFrom, hhigh, hlow]
      rfl
  | plain _ hbackslash _ =>
      show pairedFrom false (c :: rest) = _
      rw [pairedFrom.eq_def]
      split
      · rename_i heq
        cases heq
        exact absurd rfl hbackslash
      · rename_i heq
        cases heq
        exact absurd rfl hbackslash
      · rename_i heq
        cases heq
        rfl
      · rename_i heq
        cases heq

/-- An escaped text denotes the text. -/
theorem decode?_escape (s : String) : decode? (String.ofList (escape s.toList)) = some s := by
  have hpaired : ∀ cs, pairedFrom false (escape cs) = true := by
    intro cs
    induction cs with
    | nil => rfl
    | cons c cs ih =>
        rw [escape, List.flatMap_cons, pairedFrom_escapeChar, ← escape]
        exact ih
  rw [decode?, String.toList_ofList, if_pos (hpaired _), unescape_escape, String.ofList_toList]

end Json

namespace Document

open Json

theorem readSpelling_letter {l : Char} (hu : l ≠ 'u') (hl : isEscapeLetter l = true)
    (rest : List Char) :
    readSpelling ('\\' :: l :: rest)
      = (readSpelling rest).map fun r => ('\\' :: l :: r.1, r.2) := by
  rw [readSpelling.eq_def]
  split
  · rename_i heq
    cases heq
  · rename_i heq
    cases heq
  · rename_i heq
    cases heq
    exact absurd rfl hu
  · rename_i heq
    cases heq
    rw [if_pos hl]
  · rename_i hne heq
    cases heq
    exact absurd rfl (hne l rest rfl)

theorem readSpelling_unit {a b c d : Char} (h : (isHex a && isHex b && isHex c && isHex d) = true)
    (rest : List Char) :
    readSpelling ('\\' :: 'u' :: a :: b :: c :: d :: rest)
      = (readSpelling rest).map fun r => ('\\' :: 'u' :: a :: b :: c :: d :: r.1, r.2) := by
  rw [readSpelling, if_pos h]

theorem readSpelling_plain {c : Char} (hquote : c ≠ '"') (hbackslash : c ≠ '\\')
    (hcontrol : ¬c.toNat < 32) (rest : List Char) :
    readSpelling (c :: rest) = (readSpelling rest).map fun r => (c :: r.1, r.2) := by
  rw [readSpelling.eq_def]
  split
  · rename_i heq
    cases heq
  · rename_i heq
    cases heq
    exact absurd rfl hquote
  · rename_i heq
    cases heq
    exact absurd rfl hbackslash
  · rename_i heq
    cases heq
    exact absurd rfl hbackslash
  · rename_i heq
    cases heq
    rw [if_neg (by simp [hbackslash, hcontrol])]

theorem readSpelling_escapeChar (c : Char) (rest : List Char) :
    readSpelling (escapeChar c ++ rest)
      = (readSpelling rest).map fun r => (escapeChar c ++ r.1, r.2) := by
  have h := escapedAs_escapeChar c
  generalize escapeChar c = w at h ⊢
  cases h with
  | letter hu hl => exact readSpelling_letter hu hl rest
  | unit hcontrol =>
      have hhex := isHex_control c.toNat hcontrol
      exact readSpelling_unit (by simpa using hhex) rest
  | plain hquote hbackslash hcontrol => exact readSpelling_plain hquote hbackslash hcontrol rest

/-- An escaped text is read up to its quote. -/
theorem readSpelling_escape (cs rest : List Char) :
    readSpelling (escape cs ++ '"' :: rest) = some (escape cs, rest) := by
  induction cs with
  | nil => rfl
  | cons c cs ih =>
      rw [escape, List.flatMap_cons, List.append_assoc, readSpelling_escapeChar, ← escape, ih]
      rfl

end Document

/-! ## Integers -/

namespace Decimal

/-- A number is a zero alone, or its digits start with another. -/
theorem digits_eq (n : Nat) :
    digits n = ['0'] ∨ ∃ c cs, digits n = c :: cs ∧ c ≠ '0' ∧ c.isDigit = true
      ∧ ∀ d ∈ cs, d.isDigit = true := by
  by_cases hzero : n = 0
  · subst hzero
    exact .inl rfl
  · -- the first digit is that of the number without its last one
    have hhead : (digits n).head? ≠ some '0' := by
      induction n using Nat.strongRecOn with
      | ind n ih =>
          by_cases hsmall : n < 10
          · rw [digits, Nat.toDigits_of_lt_base hsmall]
            have hall : ∀ m < 10, m ≠ 0 → [m.digitChar].head? ≠ some '0' := by decide
            exact hall n hsmall hzero
          · have hrest := ih (n / 10) (by omega) (by omega)
            rw [digits, Nat.toDigits_of_base_le (by decide) (by omega)]
            rw [digits] at hrest
            cases hdigits : Nat.toDigits 10 (n / 10) with
            | nil => exact absurd hdigits Nat.toDigits_ne_nil
            | cons c cs =>
                rw [hdigits] at hrest
                exact hrest
    cases hdigits : digits n with
    | nil => exact absurd hdigits (digits_ne_nil n)
    | cons c cs =>
        have hall : ∀ d ∈ c :: cs, d.isDigit = true := by
          intro d hd
          rw [← hdigits] at hd
          exact isDigit_of_mem_digits hd
        refine .inr ⟨c, cs, rfl, ?_, hall c List.mem_cons_self,
          fun d hd => hall d (List.mem_cons_of_mem _ hd)⟩
        rintro rfl
        rw [hdigits] at hhead
        exact hhead rfl

end Decimal

namespace Numeral

/-- Characters by which the text of an integer could go on. -/
def continuesInteger (c : Char) : Bool := c.isDigit || c = '.' || c = 'e' || c = 'E'

theorem chars_ofInt (n : Int) : (ofInt n).chars = Decimal.ofInt n := by
  cases n with
  | ofNat n => simp [ofInt, chars, Decimal.ofInt]
  | negSucc n =>
      have hsign : Int.negSucc n < 0 := Int.negSucc_lt_zero n
      simp [ofInt, chars, Decimal.ofInt, hsign]

/-- Whole digits: a zero alone, or digits that start with another. -/
def IsWhole (ds : List Char) : Prop :=
  ds = ['0'] ∨ ∃ c cs, ds = c :: cs ∧ c ≠ '0' ∧ c.isDigit = true ∧ ∀ d ∈ cs, d.isDigit = true

theorem readWhole_of_isWhole {ds rest : List Char} (hds : IsWhole ds)
    (h : NotBefore Char.isDigit rest) : readWhole (ds ++ rest) = some (ds, rest) := by
  rcases hds with hzero | ⟨c, cs, hdigits, hc, hdigit, hall⟩
  · rw [hzero, List.singleton_append, readWhole]
    cases rest with
    | nil => rfl
    | cons d rest =>
        have hd : d.isDigit = false := by simpa using h
        simp [hd]
  · rw [hdigits, List.cons_append, readWhole, if_pos hdigit,
      takeWhile_append_of_notBefore hall h, dropWhile_append_of_notBefore hall h]
    exact fun h0 => hc h0

theorem readWhole_digits (n : Nat) {rest : List Char} (h : NotBefore Char.isDigit rest) :
    readWhole (Decimal.digits n ++ rest) = some (Decimal.digits n, rest) :=
  readWhole_of_isWhole (Decimal.digits_eq n) h

theorem readFraction_of_ends {rest : List Char} (h : NotBefore continuesInteger rest) :
    readFraction rest = some ([], rest) := by
  unfold readFraction
  split
  · rw [notBefore_cons] at h
    cases h
  · rfl

theorem readExponent_of_ends {rest : List Char} (h : NotBefore continuesInteger rest) :
    readExponent rest = some (none, rest) := by
  unfold readExponent
  split
  · rfl
  · rename_i c rest
    rw [notBefore_cons, continuesInteger] at h
    simp only [Bool.or_eq_false_iff] at h
    rw [if_neg (by simp [h.1.2, h.2])]

theorem notBefore_isDigit {rest : List Char} (h : NotBefore continuesInteger rest) :
    NotBefore Char.isDigit rest := by
  intro c hc
  have hends := h c hc
  simp only [continuesInteger, Bool.or_eq_false_iff] at hends
  exact hends.1.1.1

theorem read_of_whole {cs w rest : List Char}
    (h : readWhole (if cs.head? = some '-' then cs.drop 1 else cs) = some (w, rest))
    (hrest : NotBefore continuesInteger rest) :
    read cs = some (⟨decide (cs.head? = some '-'), w, [], none⟩, rest) := by
  unfold read
  simp only [h, Option.bind_eq_bind, Option.bind_some,
    readFraction_of_ends hrest, readExponent_of_ends hrest]
  rfl

theorem head?_digits_append (n : Nat) (rest : List Char) :
    (Decimal.digits n ++ rest).head? ≠ some '-' := by
  rcases Decimal.digits_eq n with hzero | ⟨c, cs, hdigits, -, hdigit, -⟩
  · rw [hzero]
    simp
  · rw [hdigits]
    intro heq
    have hc : c = '-' := Option.some.inj heq
    rw [hc] at hdigit
    cases hdigit

/-- An integer is read up to where it ends. -/
theorem read_ofInt (n : Int) {rest : List Char} (h : NotBefore continuesInteger rest) :
    read ((ofInt n).chars ++ rest) = some (ofInt n, rest) := by
  rw [chars_ofInt]
  cases n with
  | ofNat n =>
      have hhead := head?_digits_append n rest
      rw [Decimal.ofInt, read_of_whole (w := Decimal.digits n) ?_ h]
      · rw [decide_eq_false hhead, ofInt]
        simp
      · rw [if_neg hhead]
        exact readWhole_digits n (notBefore_isDigit h)
  | negSucc n =>
      rw [Decimal.ofInt, List.cons_append, read_of_whole (w := Decimal.digits (n + 1)) ?_ h]
      · simp [ofInt]
      · exact readWhole_digits (n + 1) (notBefore_isDigit h)

/-- An integer of 64 bits, signed or unsigned, denotes itself. -/
theorem value?_ofInt {n : Int} (hlow : -9223372036854775808 ≤ n)
    (hhigh : n ≤ 18446744073709551615) : (ofInt n).value? = some (.integer n) := by
  have habs : Decimal.natOfDigits (Decimal.digits n.natAbs) = n.natAbs :=
    Decimal.natOfDigits_digits _
  by_cases hsign : n < 0
  · have hsize : n.natAbs ≤ 1 <<< 63 := by omega
    have hzero : n.natAbs ≠ 0 := by omega
    have hvalue : -(n.natAbs : Int) = n := by omega
    simp only [value?, ofInt, habs, hsign, decide_true, if_true, hvalue]
    simp only [hsize, hzero, decide_true, decide_false, List.isEmpty_nil, Option.isNone_none,
      Bool.and_false, Bool.not_false, Bool.and_self, if_true]
  · have hsize : n.natAbs ≤ UInt64.size - 1 := by
      show n.natAbs ≤ 18446744073709551615
      omega
    have hvalue : (n.natAbs : Int) = n := by omega
    simp only [value?, ofInt, habs, hsign, decide_false, Bool.false_eq_true, if_false, hvalue]
    simp only [hsize, decide_true, List.isEmpty_nil, Option.isNone_none, Bool.false_and,
      Bool.not_false, Bool.and_self, if_true]

end Numeral

end DataTree
