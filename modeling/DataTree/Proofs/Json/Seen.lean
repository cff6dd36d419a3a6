import DataTree.Proofs.Json.Written
import DataTree.Store.Select

/-!
# Stored values as queries see them

A query looks up a leaf in the document of the stored text, which is that of the values
that were stored, and reads it in its own way: numbers are signed words or doubles, and
lists are texts.  An integer that does not fit a signed word is seen as a double, which is
greater than every word and whose text, with its point, is that of none.

## Main definitions

* `Json.seen` — a stored value as queries see it.
* `Json.IsInteger` — whether a value is an integer, or spells one as a string.

## Main results

* `Leaves.storedDocument?_text`, `Json.member?_memberDocuments` — a query finds a leaf of the
  stored text under its name.
* `Json.compareInt_seen`, `Json.quotable_seen` — comparisons of a value that is no double.
-/

namespace DataTree

open Magnitude

/-! ## Members -/

namespace Json

theorem member?_memberDocuments (name : String) (members : List (String × Json)) :
    (Document.object (memberDocuments members)).member? name
      = (Keyed.find? name members).map document := by
  induction members with
  | nil => rfl
  | cons m rest ih =>
      obtain ⟨key, v⟩ := m
      have hkey : unescape (String.ofList (escape key.toList)).toList = name.toList
          ↔ name = key := by
        rw [String.toList_ofList, unescape_escape, String.toList_inj]
        exact eq_comm
      rw [Document.member?] at ih
      rw [memberDocuments, Document.member?, List.find?_cons, Keyed.find?]
      by_cases hname : name = key
      · simp only [hkey.mpr hname, if_pos hname, decide_true, Option.map_some]
      · simp only [mt hkey.mp hname, if_neg hname, decide_false, ih]

end Json

namespace Leaves

/-- The document in which a query looks up the leaves of a stored text. -/
theorem storedDocument?_text {stored leaves : Leaves} (h : stored.Held)
    (hparse : Leaves.parse stored.text = some leaves) :
    storedDocument? stored.text = some (.object (Json.memberDocuments stored)) := by
  have hdocument := document_parse_text h
  rw [Leaves.parse, if_neg (text_ne_empty stored), Json.parse, hdocument, Option.bind_some]
    at hparse
  cases hvalue : Json.ofDocument Json.maxNesting (.object (Json.memberDocuments stored)) with
  | none =>
      rw [hvalue] at hparse
      cases hparse
  | some v =>
      have hdepth : (Document.object (Json.memberDocuments stored)).depth ≤ storedNesting :=
        Nat.le_trans (Json.document_depth_le _ hvalue) (by decide)
      rw [storedDocument?, hdocument]
      simp [hdepth]

end Leaves

/-! ## Integers that spell themselves -/

namespace Decimal

theorem isInt64_of_toInt? {cs : List Char} {n : Int} (h : toInt? cs = some n) : IsInt64 n := by
  have hsigned : ∀ {negative : Bool} {ds : List Char}, signed? negative ds = some n →
      IsInt64 n := by
    intro negative ds h
    unfold signed? at h
    generalize (if negative then -(natOfDigits ds : Int) else natOfDigits ds) = value at h
    simp only at h
    split at h
    · cases h
    · split at h
      · rename_i hword
        cases h
        exact hword
      · cases h
  unfold toInt? at h
  split at h <;> split at h
  all_goals first | exact hsigned h | cases h

theorem ofInt_inj {m n : Int} (hm : IsInt64 m) (hn : IsInt64 n) (h : ofInt m = ofInt n) :
    m = n := by
  have heq := toInt?_ofInt hm
  rw [h, toInt?_ofInt hn] at heq
  exact (Option.some.inj heq).symm

/-- The text of an integer has no point. -/
theorem point_notMem_ofInt (n : Int) : '.' ∉ ofInt n := by
  have hdigits : ∀ k : Nat, '.' ∉ digits k := fun k hmem => by
    have hdigit := isDigit_of_mem_digits hmem
    cases hdigit
  cases n with
  | ofNat k => exact hdigits k
  | negSucc k =>
      rw [ofInt, List.mem_cons, not_or]
      exact ⟨by decide, hdigits (k + 1)⟩

end Decimal

theorem plainInteger?_eq_some_iff {s : String} {n : Int} :
    plainInteger? s = some n ↔ Decimal.IsInt64 n ∧ s = String.ofList (Decimal.ofInt n) := by
  rw [plainInteger?, Option.filter_eq_some_iff, decide_eq_true_eq]
  constructor
  · rintro ⟨hread, hs⟩
    exact ⟨Decimal.isInt64_of_toInt? hread, hs.symm⟩
  · rintro ⟨hword, rfl⟩
    rw [String.toList_ofList, Decimal.toInt?_ofInt hword]
    exact ⟨rfl, rfl⟩

/-! ## Texts of doubles -/

theorem point_mem_positional (d : DecimalDigits) : '.' ∈ Layout.positional d := by
  unfold Layout.positional
  simp only
  split
  · simp
  · split <;> simp

theorem point_mem_scientific {l : Layout} (hl : l.pointed = true) (d : DecimalDigits) :
    '.' ∈ l.scientific d := by
  unfold Layout.scientific
  simp only [hl, if_true]
  split <;> simp

/-- The text of a double by which it is compared has a point. -/
theorem Double.point_mem_textChars (d : Double) : '.' ∈ d.textChars := by
  rw [Double.textChars]
  split
  · decide
  · refine List.mem_append_right _ ?_
    rw [Layout.chars]
    split
    · exact point_mem_positional _
    · exact point_mem_scientific rfl _

/-! ## Great integers -/

/-- An integer that is no signed word is seen as a double that is greater than all of
them. -/
theorem Numeral.nearest_ofInt_of_large {n : Int} (hlow : 9223372036854775808 ≤ n)
    (hhigh : n ≤ 18446744073709551615) :
    ∃ m : Magnitude, (Numeral.ofInt n).nearest = .double ⟨false, m⟩
      ∧ 9223372036854775808 ≤ m.value := by
  obtain ⟨k, rfl⟩ := Int.eq_ofNat_of_zero_le (by omega : 0 ≤ n)
  have hpos : 0 < k := by omega
  have hword : ¬Decimal.IsInt64 (k : Int) := by
    rw [Decimal.IsInt64]
    omega
  have hsize : k < UInt64.size := by
    rw [show UInt64.size = 18446744073709551616 from rfl]
    omega
  obtain ⟨m, hm⟩ := exists_round?_of_lt hsize
  obtain ⟨j, hlength, hpow, -⟩ := exists_length_digits hpos
  have hj : j < 20 := by
    refine (Nat.pow_lt_pow_iff_right (a := 10) (by decide)).mp (hpow.trans_lt (hsize.trans_le ?_))
    decide
  refine ⟨m, ?_, ?_⟩
  · have hsign : decide ((k : Int) < 0) = false := decide_eq_false (by omega)
    have hnumeral : Numeral.ofInt (k : Int) = ⟨false, Decimal.digits k, [], none⟩ := by
      rw [Numeral.ofInt, hsign, Int.natAbs_natCast]
    have hdigits : Decimal.natOfDigits (Decimal.digits k ++ []) = k := by
      rw [List.append_nil, Decimal.natOfDigits_digits]
    have hnearest : (Numeral.ofInt (k : Int)).nearest
        = (Numeral.ofInt (k : Int)).nearestDouble := by
      simp [Numeral.nearest, hnumeral, hword]
    have hpower : Numeral.power ⟨false, Decimal.digits k, [], none⟩ = 0 := rfl
    rw [hnearest, hnumeral, Numeral.nearestDouble_eq (m := m)]
    · rwa [hdigits]
    · rw [hdigits, hpower, hlength, placesBound]
      omega
    · rw [hdigits, hpower, hlength, placesBound]
      omega
    · rw [hdigits, hpower, powerOfTen, if_pos le_rfl]
      simpa using hm
  · have hbound : round? 9223372036854775808 1 = some ⟨1 <<< 52, 11⟩ := by decide +kernel
    have hle := value_le_of_round? Nat.one_pos Nat.one_pos
      (Numeral.div_one_le (by omega : 9223372036854775808 ≤ k)) hbound hm
    refine le_trans ?_ hle
    rw [value, shiftLeft_cast]
    norm_num

/-- A word that a double of that size is compared with is less. -/
theorem Double.compareInt_of_large {m : Magnitude} {n : Int} (h : 9223372036854775808 ≤ m.value)
    (hn : Decimal.IsInt64 n) : (Double.mk false m).compareInt n = .gt := by
  have hden : (0 : ℚ) < m.toRatio.2 := by exact_mod_cast m.toRatio_pos
  have hword : (n : ℚ) < 9223372036854775808 := by
    have hlt : n < 9223372036854775808 := by
      have hhigh := hn.2
      omega
    exact_mod_cast hlt
  have hlt := hword.trans_le h
  rw [← toRatio_div, lt_div_iff₀ hden] at hlt
  rw [Double.compareInt, compare_gt_iff_gt, Double.numerator, if_neg Bool.false_ne_true]
  exact_mod_cast hlt

/-- An integer of the signed words is the same for nodes and for queries. -/
theorem Numeral.nearest_of_value? {m : Numeral} {n : Int} (h : m.value? = some (.integer n))
    (hn : Decimal.IsInt64 n) : m.nearest = .integer n := by
  have hinteger : ∀ {c : Bool} {x : Int},
      (if c then some (Number.integer x) else m.double?.map .double) = some (.integer n) →
      c = true ∧ x = n := by
    intro c x hx
    split at hx
    · rename_i hc
      exact ⟨hc, Number.integer.inj (Option.some.inj hx)⟩
    · obtain ⟨_, -, hdouble⟩ := Option.map_eq_some_iff.mp hx
      cases hdouble
  obtain ⟨hwritten, rfl⟩ := hinteger h
  simp only [Bool.and_eq_true] at hwritten
  obtain ⟨⟨⟨hfraction, hexponent⟩, -⟩, -⟩ := hwritten
  simp [Numeral.nearest, hfraction, hexponent, hn]

/-! ## Values -/

namespace Json

/-- A stored value as queries see it. -/
def seen (v : Json) : LeafValue := LeafValue.ofDocument v.document

/-- Whether a value is an integer: as a number, or as a string that spells a word in plain
decimal. -/
def IsInteger (v : Json) (n : Int) : Prop :=
  v = .number (.integer n) ∨ Decimal.IsInt64 n ∧ v = .string (String.ofList (Decimal.ofInt n))

theorem isInteger_string_iff {s : String} {n : Int} :
    (Json.string s).IsInteger n ↔ plainInteger? s = some n := by
  simp [IsInteger, plainInteger?_eq_some_iff]

theorem isInteger_number_iff {m n : Int} :
    (Json.number (.integer m)).IsInteger n ↔ m = n := by
  simp [IsInteger]

theorem IsInteger.unique {v : Json} {m n : Int} (hm : v.IsInteger m) (hn : v.IsInteger n) :
    m = n := by
  rcases hm with rfl | ⟨hword, rfl⟩
  · exact isInteger_number_iff.mp hn
  · rw [isInteger_string_iff] at hn
    have hm := plainInteger?_eq_some_iff.mpr ⟨hword, rfl⟩
    exact Option.some.inj (hm.symm.trans hn)

theorem Alike.isInteger_iff {v w : Json} (h : v.Alike w) {n : Int} :
    v.IsInteger n ↔ w.IsInteger n :=
  Alike.congr (P := (IsInteger · n)) (by simp [IsInteger]) (by simp [IsInteger])
    (by simp [IsInteger]) h

@[simp] theorem seen_null : Json.null.seen = .null := rfl

@[simp] theorem seen_bool (b : Bool) : (Json.bool b).seen = .bool b := rfl

@[simp] theorem seen_string (s : String) : (Json.string s).seen = .text s := by
  rw [seen, document, LeafValue.ofDocument, String.toList_ofList, unescape_escape,
    String.ofList_toList]

/-- Lists and objects are seen as texts that are never compared. -/
@[simp] theorem seen_array (items : List Json) :
    (Json.array items).seen = .composite (String.ofList (array items).document.chars) := rfl

@[simp] theorem seen_object (members : List (String × Json)) :
    (Json.object members).seen = .composite (String.ofList (object members).document.chars) := rfl

theorem seen_number (n : Number) : (Json.number n).seen = .number n.numeral.nearest := rfl

theorem seen_integer {n : Int} (h : Decimal.IsInt64 n) :
    (Json.number (.integer n)).seen = .number (.integer n) := by
  have hhigh := h.2
  rw [seen_number, Number.numeral_integer,
    Numeral.nearest_of_value? (Numeral.value?_ofInt h.1 (by omega)) h]

/-- An integer that does not fit a word is seen as a greater double. -/
theorem exists_seen_integer {n : Int} (hheld : (Json.number (.integer n)).Held)
    (h : ¬Decimal.IsInt64 n) : ∃ m : Magnitude, (Json.number (.integer n)).seen
      = .number (.double ⟨false, m⟩) ∧ 9223372036854775808 ≤ m.value := by
  obtain ⟨hlow, hhigh⟩ : -9223372036854775808 ≤ n ∧ n ≤ 18446744073709551615 := hheld
  rw [Decimal.IsInt64, not_and] at h
  obtain ⟨m, hm, hvalue⟩ := Numeral.nearest_ofInt_of_large (not_le.mp (h hlow)) hhigh
  exact ⟨m, by rw [seen_number, Number.numeral_integer, hm], hvalue⟩

theorem seen_eq_bool_iff {v : Json} {b : Bool} : v.seen = .bool b ↔ v = .bool b := by
  cases v <;> simp [seen_number]

variable {v : Json} (hheld : v.Held) (hdouble : ∀ d, v ≠ .number (.double d)) {n : Int}
  (hn : Decimal.IsInt64 n)

include hheld hdouble hn

/-- A value that is no double compares with a word as the integer that it is, if it is
one. -/
theorem compareInt_seen (o : Ordering) :
    v.seen.compareInt n = some o ↔ ∃ m, v.IsInteger m ∧ o = compare m n := by
  cases v with
  | null => simp [LeafValue.compareInt, IsInteger]
  | bool b => simp [LeafValue.compareInt, IsInteger]
  | string s =>
      simp only [seen_string, LeafValue.compareInt, Option.map_eq_some_iff, isInteger_string_iff]
      simp only [eq_comm]
  | number m =>
      cases m with
      | double d => exact absurd rfl (hdouble d)
      | integer m =>
          simp only [isInteger_number_iff, exists_eq_left']
          by_cases hm : Decimal.IsInt64 m
          · rw [seen_integer hm, LeafValue.compareInt, Numeral.Stored.compareInt, Option.some_inj]
            exact eq_comm
          · obtain ⟨x, hx, hvalue⟩ := exists_seen_integer hheld hm
            rw [hx, LeafValue.compareInt, Numeral.Stored.compareInt,
              Double.compareInt_of_large hvalue hn, Option.some_inj]
            have hlarge : compare m n = .gt := by
              rw [compare_gt_iff_gt]
              have hlow : -9223372036854775808 ≤ m := hheld.1
              rw [Decimal.IsInt64] at hm hn
              omega
            rw [hlarge]
            exact eq_comm
  | array items => simp [LeafValue.compareInt, IsInteger]
  | object members => simp [LeafValue.compareInt, IsInteger]

/-- It has the text of a word exactly if it is that integer. -/
theorem quotable_seen :
    v.seen.quotable = some (String.ofList (Decimal.ofInt n)) ↔ v.IsInteger n := by
  have htext : ∀ {cs : List Char}, String.ofList cs = String.ofList (Decimal.ofInt n)
      → cs = Decimal.ofInt n := fun h => by
    rw [← String.toList_inj, String.toList_ofList, String.toList_ofList] at h
    exact h
  cases v with
  | null => simp [LeafValue.quotable, IsInteger]
  | bool b =>
      refine iff_of_false (fun h => ?_) (by simp [IsInteger])
      have hchars := congrArg String.toList (Option.some.inj h)
      rw [String.toList_ofList] at hchars
      have hword := Decimal.toInt?_ofInt hn
      rw [← hchars] at hword
      cases b <;> cases hword
  | string s => simp [LeafValue.quotable, IsInteger, hn]
  | number m =>
      cases m with
      | double d => exact absurd rfl (hdouble d)
      | integer m =>
          rw [isInteger_number_iff]
          by_cases hm : Decimal.IsInt64 m
          · rw [seen_integer hm, LeafValue.quotable, Numeral.Stored.text, Option.some_inj]
            exact ⟨fun h => Decimal.ofInt_inj hm hn (htext h), fun h => by rw [h]⟩
          · obtain ⟨x, hx, -⟩ := exists_seen_integer hheld hm
            rw [hx, LeafValue.quotable, Numeral.Stored.text, Option.some_inj]
            refine iff_of_false (fun h => ?_) fun h => hm (h ▸ hn)
            have hpoint := Double.point_mem_textChars ⟨false, x⟩
            rw [htext h] at hpoint
            exact Decimal.point_notMem_ofInt n hpoint
  | array items => simp [LeafValue.quotable, IsInteger]
  | object members => simp [LeafValue.quotable, IsInteger]

end Json

end DataTree
