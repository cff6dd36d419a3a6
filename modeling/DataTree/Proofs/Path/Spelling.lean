import DataTree.Path.Query
import DataTree.Proofs.Text.Runs

/-!
# Spellings of paths

A path has many spellings: blanks inside brackets, either quote around a
value without it, integers with a sign or leading zeros.  This module says
which texts spell a piece of syntax, independently of the readers: names are
identifiers, values are quoted by a quote they do not hold, and the pieces
are put together by concatenation.

Every reader stops at the end of its piece, so a spelling is read back in
front of any text that cannot extend it.  A step is followed by a slash or
by nothing, which is why the readers agree with the spellings.

## Main definitions

* `IsName`, `QuotedAs`, `LiteralAs` — the texts that spell a name, a quoted
  text, a literal.

## Main results

* `readName_append`, `readQuoted_append`, `readInteger_append` — a piece is
  read in front of any text that cannot extend it.
* `name_of_readName`, `quoted_of_readQuoted` — and from nothing else.
-/

namespace DataTree.Path

open DataTree.Text

/-! ## Blanks and leads -/

/-- Blanks only. -/
def Blank (w : List Char) : Prop := ∀ c ∈ w, isBlank c = true

theorem blank_nil : Blank [] := by
  intro c hc
  cases hc

theorem isBlank_iff {c : Char} :
    isBlank c = true ↔ c ∈ [' ', '\t', '\n', '\x0c', '\r'] := by
  simp [isBlank, or_assoc]

/-- Blanks and what follows them do not go on with a class without blanks. -/
theorem blank_notBefore {p : Char → Bool} {b rest : List Char} (hb : Blank b)
    (hp : [' ', '\t', '\n', '\x0c', '\r'].any p = false) (hrest : NotBefore p rest) :
    NotBefore p (b ++ rest) := by
  cases b with
  | nil => exact hrest
  | cons c b =>
      rw [List.cons_append, notBefore_cons]
      exact eq_false_of_ne_true (List.any_eq_false.mp hp c (isBlank_iff.mp (hb c (by simp))))

theorem skipBlank_append {b rest : List Char} (hb : Blank b) (hrest : NotBefore isBlank rest) :
    skipBlank (b ++ rest) = rest :=
  dropWhile_append_of_notBefore hb hrest

/-- The blanks that are skipped, split off. -/
theorem exists_blank_append (cs : List Char) : ∃ b, Blank b ∧ cs = b ++ skipBlank cs := by
  refine ⟨cs.takeWhile isBlank, ?_, (List.takeWhile_append_dropWhile).symm⟩
  intro c hc
  exact List.all_eq_true.mp List.all_takeWhile c hc

/-! ## Names -/

/-- A letter or underscore, then name characters. -/
def IsIdentifier : List Char → Prop
  | [] => False
  | c :: cs => isNameStart c = true ∧ ∀ x ∈ cs, isNameChar x = true

/-- An identifier, or two of them joined by a colon. -/
def IsName (w : List Char) : Prop :=
  IsIdentifier w ∨ ∃ a b, IsIdentifier a ∧ IsIdentifier b ∧ w = a ++ ':' :: b

/-- Whether a name would go on with this character. -/
def continuesName (c : Char) : Bool := isNameChar c || c = ':'

theorem notBefore_isNameChar {rest : List Char} (h : NotBefore continuesName rest) :
    NotBefore isNameChar rest := by
  intro c hc
  have := h c hc
  simp only [continuesName, Bool.or_eq_false_iff] at this
  exact this.1

theorem readIdentifier_append {w rest : List Char} (hw : IsIdentifier w)
    (hrest : NotBefore isNameChar rest) : readIdentifier (w ++ rest) = .ok (w, rest) := by
  cases w with
  | nil => cases hw
  | cons c cs =>
      obtain ⟨hc, hcs⟩ := hw
      simp only [List.cons_append, readIdentifier, hc, if_true,
        takeWhile_append_of_notBefore hcs hrest, dropWhile_append_of_notBefore hcs hrest]

theorem identifier_of_readIdentifier {cs w rest : List Char}
    (h : readIdentifier cs = .ok (w, rest)) : IsIdentifier w ∧ cs = w ++ rest := by
  cases cs with
  | nil => cases h
  | cons c cs =>
      simp only [readIdentifier] at h
      split at h
      · rename_i hc
        cases h
        refine ⟨⟨hc, fun x hx => ?_⟩, ?_⟩
        · exact List.all_eq_true.mp List.all_takeWhile x hx
        · rw [List.cons_append, List.takeWhile_append_dropWhile]
      · cases h

theorem notBefore_colon : NotBefore isNameChar (':' :: rest) := by
  simp [isNameChar]

/-- A name is read in front of anything it does not go on with. -/
theorem readName_append {w : String} {rest : List Char} (hw : IsName w.toList)
    (hrest : NotBefore continuesName rest) : readName (w.toList ++ rest) = .ok (w, rest) := by
  have hstop := notBefore_isNameChar hrest
  rcases hw with hid | ⟨a, b, ha, hb, hab⟩
  · unfold readName
    rw [readIdentifier_append hid hstop]
    cases rest with
    | nil => simp
    | cons c rest =>
        have hc : c ≠ ':' := by
          rintro rfl
          simp [continuesName] at hrest
        split
        · rename_i heq; cases heq
        · rename_i heq; simp at heq; exact absurd heq.2.1 hc
        · rename_i heq; simp at heq; simp [← heq.1, ← heq.2]
  · cases b with
    | nil => cases hb
    | cons c b =>
        obtain ⟨hc, hcs⟩ := hb
        have hread : readIdentifier (w.toList ++ rest) = .ok (a, ':' :: c :: (b ++ rest)) := by
          rw [hab, List.append_assoc]
          exact readIdentifier_append ha notBefore_colon
        unfold readName
        rw [hread]
        simp only [hc, if_true, takeWhile_append_of_notBefore hcs hstop,
          dropWhile_append_of_notBefore hcs hstop, ← hab, String.ofList_toList]

/-- What is read as a name is one, and the text does not go on with it. -/
theorem name_of_readName {cs rest : List Char} {w : String} (h : readName cs = .ok (w, rest)) :
    IsName w.toList ∧ cs = w.toList ++ rest := by
  unfold readName at h
  split at h
  · cases h
  · rename_i first c more hid
    obtain ⟨hfirst, rfl⟩ := identifier_of_readIdentifier hid
    split at h
    · rename_i hc
      cases h
      refine ⟨.inr ⟨first, c :: more.takeWhile isNameChar, hfirst, ⟨hc, ?_⟩, by simp⟩, ?_⟩
      · intro x hx
        exact List.all_eq_true.mp List.all_takeWhile x hx
      · simp [List.takeWhile_append_dropWhile]
    · cases h
      exact ⟨.inl (by simpa using hfirst), by simp⟩
  · rename_i hid
    obtain ⟨hfirst, rfl⟩ := identifier_of_readIdentifier hid
    cases h
    exact ⟨.inl (by simpa using hfirst), by simp⟩

/-! ## Values -/

/-- A value between two quotes of a kind that it does not hold. -/
def QuotedAs (v w : List Char) : Prop :=
  ∃ q, (q = '\'' ∨ q = '"') ∧ q ∉ v ∧ w = q :: v ++ [q]

/-- The spellings of a sign. -/
def SignedAs : Bool → List Char → Prop
  | true, w => w = ['-']
  | false, w => w = [] ∨ w = ['+']

/-- A signed 64-bit integer in decimal, with or without leading zeros. -/
def IntegerAs (n : Int) (w : List Char) : Prop :=
  ∃ negative sgn ds, SignedAs negative sgn ∧ ds ≠ [] ∧ (∀ c ∈ ds, c.isDigit = true)
    ∧ n = (if negative then -(Decimal.natOfDigits ds : Int) else Decimal.natOfDigits ds)
    ∧ Decimal.IsInt64 n ∧ w = sgn ++ ds

def LiteralAs : Literal → List Char → Prop
  | .integer n, w => IntegerAs n w
  | .text v, w => QuotedAs v.toList w

theorem readQuoted_append {v : String} {w rest : List Char} (hw : QuotedAs v.toList w) :
    readQuoted (w ++ rest) = .ok (v, rest) := by
  obtain ⟨q, hq, hv, rfl⟩ := hw
  have hne : ∀ c ∈ v.toList, (decide (c ≠ q)) = true := by
    intro c hc
    simpa using fun h : c = q => hv (h ▸ hc)
  have hstop : NotBefore (fun c => decide (c ≠ q)) (q :: rest) := by simp
  have htake := takeWhile_append_of_notBefore hne hstop
  have hdrop := dropWhile_append_of_notBefore hne hstop
  have hquote : (q = '\'' || q = '"') = true := by simpa using hq
  rw [List.append_assoc, List.cons_append, List.singleton_append]
  simp only [readQuoted, hquote, if_true, hdrop, htake, String.ofList_toList]

theorem quoted_of_readQuoted {cs rest : List Char} {v : String}
    (h : readQuoted cs = .ok (v, rest)) : ∃ w, QuotedAs v.toList w ∧ cs = w ++ rest := by
  cases cs with
  | nil => cases h
  | cons q cs =>
      simp only [readQuoted] at h
      split at h
      · rename_i hq
        split at h
        · cases h
        · rename_i c more hd
          cases h
          have hc : c = q := by
            have hstop := List.head?_dropWhile_not (fun c => decide (c ≠ q)) cs
            rw [hd] at hstop
            simpa using hstop
          subst hc
          refine ⟨c :: cs.takeWhile (fun x => decide (x ≠ c)) ++ [c],
            ⟨c, by simpa using hq, ?_, by simp⟩, ?_⟩
          · intro hmem
            rw [String.toList_ofList] at hmem
            simpa using List.all_eq_true.mp List.all_takeWhile c hmem
          · have hsplit : cs.takeWhile (fun x => decide (x ≠ c))
                ++ cs.dropWhile (fun x => decide (x ≠ c)) = cs := List.takeWhile_append_dropWhile
            rw [hd] at hsplit
            simpa using hsplit.symm
      · cases h

/-- A sign and digits denote a word exactly if there is a digit and the value
is in range. -/
theorem signed?_eq_some_iff {negative : Bool} {ds : List Char} {n : Int} :
    Decimal.signed? negative ds = some n ↔
      ds ≠ [] ∧ n = (if negative then -(Decimal.natOfDigits ds : Int) else Decimal.natOfDigits ds)
        ∧ Decimal.IsInt64 n := by
  unfold Decimal.signed?
  dsimp only
  generalize (if negative then -(Decimal.natOfDigits ds : Int) else Decimal.natOfDigits ds) = m
  by_cases hne : ds = []
  · simp [hne]
  · by_cases hrange : Decimal.IsInt64 m
    · simp only [List.isEmpty_iff, hne, hrange, if_true, if_false, Option.some.injEq]
      constructor
      · rintro rfl
        exact ⟨hne, rfl, hrange⟩
      · rintro ⟨-, rfl, -⟩
        rfl
    · simp only [List.isEmpty_iff, hne, hrange, if_false]
      constructor
      · intro h
        cases h
      · rintro ⟨-, rfl, h⟩
        exact absurd h hrange

theorem sign_append {negative : Bool} {sgn ds rest : List Char} (hs : SignedAs negative sgn)
    (hds : ds ≠ []) (hdig : ∀ c ∈ ds, c.isDigit = true) :
    sign (sgn ++ ds ++ rest) = (negative, ds ++ rest) := by
  cases negative with
  | true =>
      have hs : sgn = ['-'] := hs
      subst hs
      rfl
  | false =>
      rcases hs with rfl | rfl
      · cases ds with
        | nil => exact absurd rfl hds
        | cons d ds =>
            have hd := hdig d (by simp)
            unfold sign
            split
            · rename_i heq
              simp at heq
              rw [heq.1] at hd
              cases hd
            · rename_i heq
              simp at heq
              rw [heq.1] at hd
              cases hd
            · rfl
      · rfl

theorem sign_spelled (cs : List Char) :
    ∃ sgn, SignedAs (sign cs).1 sgn ∧ cs = sgn ++ (sign cs).2 := by
  unfold sign
  split
  · exact ⟨['-'], rfl, rfl⟩
  · exact ⟨['+'], .inr rfl, rfl⟩
  · exact ⟨[], .inl rfl, rfl⟩

theorem readInteger_append {n : Int} {w rest : List Char} (hw : IntegerAs n w)
    (hrest : NotBefore Char.isDigit rest) : readInteger (w ++ rest) = .ok (n, rest) := by
  obtain ⟨negative, sgn, ds, hs, hne, hdig, hn, hrange, rfl⟩ := hw
  have hvalue := signed?_eq_some_iff.mpr ⟨hne, hn, hrange⟩
  unfold readInteger
  simp only [sign_append hs hne hdig, takeWhile_append_of_notBefore hdig hrest,
    dropWhile_append_of_notBefore hdig hrest, hvalue]

theorem integer_of_readInteger {cs rest : List Char} {n : Int}
    (h : readInteger cs = .ok (n, rest)) : ∃ w, IntegerAs n w ∧ cs = w ++ rest := by
  unfold readInteger at h
  split at h
  · rename_i m hm
    cases h
    obtain ⟨sgn, hsgn, hcs⟩ := sign_spelled cs
    obtain ⟨hne, hn, hrange⟩ := signed?_eq_some_iff.mp hm
    refine ⟨sgn ++ (sign cs).2.takeWhile Char.isDigit,
      ⟨(sign cs).1, sgn, (sign cs).2.takeWhile Char.isDigit, hsgn, hne, ?_, hn, hrange, rfl⟩, ?_⟩
    · intro c hc
      exact List.all_eq_true.mp List.all_takeWhile c hc
    · rw [List.append_assoc, List.takeWhile_append_dropWhile]
      exact hcs
  · cases h

end DataTree.Path
