import DataTree.Proofs.Json.Spelling

/-!
# Documents read back

A document is printed without blanks, and a printed value is read in front
of any text that cannot extend its last number.  The reader counts the values
and members it meets; each is printed with at least one character, so the
length of the text is enough.

## Main definitions

* `Document.ReadsBack` — every literal of the document is read as spelled.

## Main results

* `readValue_chars` — such a document is read from its text.
* `parse_chars` — also as a whole text.
-/

namespace DataTree

open DataTree.Text DataTree.Json

/-- A numeral that is read from its text. -/
def Numeral.ReadsBack (n : Numeral) : Prop :=
  (∃ c, n.chars.head? = some c ∧ (c = '-' ∨ c.isDigit = true))
    ∧ ∀ rest, NotBefore continuesInteger rest → read (n.chars ++ rest) = some (n, rest)

namespace Document

mutual
/-- Whether every literal of a document is read as it is spelled. -/
def ReadsBack : Document → Prop
  | .null | .bool _ => True
  | .number n => n.ReadsBack
  | .string s => ∀ rest, readSpelling (s.toList ++ '"' :: rest) = some (s.toList, rest)
  | .array items => ItemsReadBack items
  | .object members => MembersReadBack members

def ItemsReadBack : List Document → Prop
  | [] => True
  | d :: rest => ReadsBack d ∧ ItemsReadBack rest

def MembersReadBack : List (String × Document) → Prop
  | [] => True
  | (key, d) :: rest =>
    (∀ more, readSpelling (key.toList ++ '"' :: more) = some (key.toList, more))
      ∧ ReadsBack d ∧ MembersReadBack rest
end

/-! ## Commas -/

@[simp] theorem commas_singleton (part : List Char) : commas [part] = part := by
  simp [commas, List.intercalate]

theorem commas_cons_cons (part next : List Char) (rest : List (List Char)) :
    commas (part :: next :: rest) = part ++ ',' :: commas (next :: rest) := by
  simp [commas, List.intercalate]

/-! ## The start of a value -/

theorem skipSpace_of_notBefore {cs : List Char} (h : NotBefore isSpace cs) : skipSpace cs = cs :=
  dropWhile_append_of_notBefore (w := []) (by simp) h

theorem skipSpace_cons {c : Char} (h : isSpace c = false) (rest : List Char) :
    skipSpace (c :: rest) = c :: rest :=
  skipSpace_of_notBefore ((notBefore_cons _ _ _).mpr h)

/-- Characters that a printed value may start with. -/
def startsValue (c : Char) : Bool :=
  c = 'n' || c = 't' || c = 'f' || c = '"' || c = '[' || c = '{' || c = '-' || c.isDigit

theorem not_isSpace_of_startsValue {c : Char} (h : startsValue c = true) : isSpace c = false := by
  cases hspace : isSpace c with
  | false => rfl
  | true =>
      rw [isSpace, Bool.or_eq_true, Bool.or_eq_true, Bool.or_eq_true] at hspace
      simp only [decide_eq_true_eq] at hspace
      rcases hspace with ((rfl | rfl) | rfl) | rfl <;> cases h

theorem head?_chars : (d : Document) → d.ReadsBack →
    ∃ c, d.chars.head? = some c ∧ startsValue c = true
  | .null, _ => ⟨'n', rfl, rfl⟩
  | .bool true, _ => ⟨'t', rfl, rfl⟩
  | .bool false, _ => ⟨'f', rfl, rfl⟩
  | .number n, h => by
    obtain ⟨⟨c, hc, hstart⟩, -⟩ := h
    refine ⟨c, hc, ?_⟩
    rcases hstart with rfl | hdigit
    · rfl
    · simp [startsValue, hdigit]
  | .string s, _ => ⟨'"', rfl, rfl⟩
  | .array items, _ => ⟨'[', rfl, rfl⟩
  | .object members, _ => ⟨'{', rfl, rfl⟩

theorem exists_chars_eq_cons {d : Document} (h : d.ReadsBack) :
    ∃ c cs, d.chars = c :: cs ∧ startsValue c = true := by
  obtain ⟨c, hc, hstart⟩ := head?_chars d h
  cases hchars : d.chars with
  | nil =>
      rw [hchars] at hc
      cases hc
  | cons c' cs =>
      rw [hchars] at hc
      cases hc
      exact ⟨c, cs, rfl, hstart⟩

/-! ## Scalars -/

theorem after?_eq_none {l c : Char} (h : l ≠ c) (lead cs : List Char) :
    after? (l :: lead) (c :: cs) = none := by
  rw [after?, if_neg h]

theorem readScalar_number {n : Numeral} (h : n.ReadsBack) {rest : List Char}
    (hrest : NotBefore Numeral.continuesInteger rest) :
    readScalar (n.chars ++ rest) = some (.number n, rest) := by
  obtain ⟨⟨c, hc, hstart⟩, hread⟩ := h
  have hletter : 'n' ≠ c ∧ 't' ≠ c ∧ 'f' ≠ c := by
    rcases hstart with rfl | hdigit
    · decide
    · refine ⟨?_, ?_, ?_⟩ <;> rintro rfl <;> cases hdigit
  have hread := hread rest hrest
  cases hchars : n.chars with
  | nil =>
      rw [hchars] at hc
      cases hc
  | cons c' cs =>
      rw [hchars] at hc hread
      cases hc
      rw [readScalar, List.cons_append]
      rw [List.cons_append] at hread
      rw [show "null".toList = 'n' :: "ull".toList from rfl, after?_eq_none hletter.1,
        show "true".toList = 't' :: "rue".toList from rfl, after?_eq_none hletter.2.1,
        show "false".toList = 'f' :: "alse".toList from rfl, after?_eq_none hletter.2.2, hread]
      rfl

theorem readValue_scalar {c : Char} {cs : List Char} (fuel : Nat) (hspace : isSpace c = false)
    (hc : c ≠ '{' ∧ c ≠ '[' ∧ c ≠ '"') : readValue (fuel + 1) (c :: cs) = readScalar (c :: cs) := by
  rw [readValue, skipSpace_cons hspace]
  split
  · rename_i heq
    cases heq
    exact absurd rfl hc.1
  · rename_i heq
    cases heq
    exact absurd rfl hc.2.1
  · rename_i heq
    cases heq
    exact absurd rfl hc.2.2
  · rfl

theorem spelled_append (s : String) (rest : List Char) :
    spelled s ++ rest = '"' :: (s.toList ++ '"' :: rest) := by
  simp [spelled]

theorem readValue_string {s : String}
    (h : ∀ rest, readSpelling (s.toList ++ '"' :: rest) = some (s.toList, rest)) (fuel : Nat)
    (rest : List Char) : readValue (fuel + 1) (spelled s ++ rest) = some (.string s, rest) := by
  rw [spelled_append, readValue, skipSpace_cons rfl]
  simp only [h, Option.map_some, String.ofList_toList]

/-! ## Arrays and objects -/

/-- What may follow a value inside an array or object. -/
def Separates (c : Char) : Prop := c = ',' ∨ c = ']' ∨ c = '}'

theorem notBefore_of_separates {c : Char} (h : Separates c) (rest : List Char) :
    NotBefore Numeral.continuesInteger (c :: rest) := by
  rcases h with rfl | rfl | rfl <;> exact (notBefore_cons _ _ _).mpr (by decide)

theorem skipSpace_of_separates {c : Char} (h : Separates c) (rest : List Char) :
    skipSpace (c :: rest) = c :: rest := by
  refine skipSpace_cons ?_ rest
  rcases h with rfl | rfl | rfl <;> rfl

/-- The first item is read as an item, since no value starts with the closing
bracket. -/
theorem readValue_array {c : Char} (hspace : isSpace c = false) (hc : c ≠ ']') (fuel : Nat)
    (cs : List Char) :
    readValue (fuel + 1) ('[' :: c :: cs)
      = (readItems fuel (c :: cs)).map fun r => (.array r.1, r.2) := by
  rw [readValue, skipSpace_cons rfl]
  simp only
  rw [skipSpace_cons hspace]
  split
  · rename_i heq
    cases heq
    exact absurd rfl hc
  · rfl

theorem readValue_object (fuel : Nat) (cs : List Char) :
    readValue (fuel + 1) ('{' :: '"' :: cs)
      = (readMembers fuel ('"' :: cs)).map fun r => (.object r.1, r.2) := by
  rw [readValue, skipSpace_cons rfl]
  simp only
  rw [skipSpace_cons rfl]
  rfl

/-- Parts with commas between them start as the first part does. -/
theorem commas_cons (part : List Char) (rest : List (List Char)) :
    ∃ cs, commas (part :: rest) = part ++ cs := by
  cases rest with
  | nil => exact ⟨[], by rw [commas_singleton, List.append_nil]⟩
  | cons next rest => exact ⟨_, commas_cons_cons part next rest⟩

theorem readItems_last {d : Document} {fuel : Nat} {rest : List Char}
    (hd : readValue fuel (d.chars ++ ']' :: rest) = some (d, ']' :: rest)) :
    readItems (fuel + 1) (d.chars ++ ']' :: rest) = some ([d], rest) := by
  rw [readItems, hd]
  simp only
  rw [skipSpace_of_separates (.inr (.inl rfl))]
  rfl

theorem readItems_next {d : Document} {fuel : Nat} {cs : List Char}
    (hd : readValue fuel (d.chars ++ ',' :: cs) = some (d, ',' :: cs)) :
    readItems (fuel + 1) (d.chars ++ ',' :: cs)
      = (readItems fuel cs).map fun r => (d :: r.1, r.2) := by
  rw [readItems, hd]
  simp only
  rw [skipSpace_of_separates (.inl rfl)]
  rfl

theorem readMembers_last {key : String} {d : Document} {fuel : Nat} {rest : List Char}
    (hkey : ∀ more, readSpelling (key.toList ++ '"' :: more) = some (key.toList, more))
    (hd : readValue fuel (d.chars ++ '}' :: rest) = some (d, '}' :: rest)) :
    readMembers (fuel + 1) (spelled key ++ ':' :: d.chars ++ '}' :: rest)
      = some ([(key, d)], rest) := by
  rw [List.append_assoc, List.cons_append, spelled_append, readMembers, skipSpace_cons rfl]
  simp only [hkey]
  rw [skipSpace_cons rfl]
  simp only [hd]
  rw [skipSpace_of_separates (.inr (.inr rfl)), String.ofList_toList]
  rfl

theorem readMembers_next {key : String} {d : Document} {fuel : Nat} {cs : List Char}
    (hkey : ∀ more, readSpelling (key.toList ++ '"' :: more) = some (key.toList, more))
    (hd : readValue fuel (d.chars ++ ',' :: cs) = some (d, ',' :: cs)) :
    readMembers (fuel + 1) (spelled key ++ ':' :: d.chars ++ ',' :: cs)
      = (readMembers fuel cs).map fun r => ((key, d) :: r.1, r.2) := by
  rw [List.append_assoc, List.cons_append, spelled_append, readMembers, skipSpace_cons rfl]
  simp only [hkey]
  rw [skipSpace_cons rfl]
  simp only [hd]
  rw [skipSpace_of_separates (.inl rfl), String.ofList_toList]
  rfl

/-! ## Documents -/

mutual
/-- A document is read from its text in front of any text that cannot extend
it. -/
theorem readValue_chars : (d : Document) → d.ReadsBack → {fuel : Nat} → d.chars.length < fuel →
    {rest : List Char} → NotBefore Numeral.continuesInteger rest →
    readValue fuel (d.chars ++ rest) = some (d, rest)
  | .null, _, fuel + 1, _, rest, _ => readValue_scalar fuel rfl (by decide)
  | .bool true, _, fuel + 1, _, rest, _ => readValue_scalar fuel rfl (by decide)
  | .bool false, _, fuel + 1, _, rest, _ => readValue_scalar fuel rfl (by decide)
  | .number n, h, fuel + 1, _, rest, hrest => by
    have hread := readScalar_number h hrest
    obtain ⟨⟨c, hc, hstart⟩, -⟩ := h
    have hvalue : startsValue c = true := by
      rcases hstart with rfl | hdigit
      · rfl
      · simp [startsValue, hdigit]
    have hplain : c ≠ '{' ∧ c ≠ '[' ∧ c ≠ '"' := by
      rcases hstart with rfl | hdigit
      · decide
      · refine ⟨?_, ?_, ?_⟩ <;> rintro rfl <;> cases hdigit
    rw [chars]
    cases hchars : n.chars with
    | nil =>
        rw [hchars] at hc
        cases hc
    | cons c' cs =>
        rw [hchars] at hc hread
        cases hc
        rw [List.cons_append, readValue_scalar fuel (not_isSpace_of_startsValue hvalue) hplain]
        exact hread
  | .string s, h, fuel + 1, _, rest, _ => readValue_string h fuel rest
  | .array [], _, fuel + 1, _, rest, _ => by
    show readValue (fuel + 1) ('[' :: ']' :: rest) = _
    rw [readValue, skipSpace_cons rfl]
    simp only
    rw [skipSpace_cons rfl]
    rfl
  | .array (d :: items), h, fuel + 1, hfuel, rest, _ => by
    rw [chars, List.cons_append, List.length_cons, List.length_append, List.length_singleton]
      at hfuel
    have hlength : (commas (itemsChars (d :: items))).length + 1 < fuel := by omega
    have hread := readItems_chars (d :: items) (List.cons_ne_nil _ _) h hlength rest
    obtain ⟨c, cs, hchars, hstart⟩ := exists_chars_eq_cons h.1
    obtain ⟨more, hcommas⟩ := commas_cons d.chars (itemsChars items)
    have hend : c ≠ ']' := by
      rintro rfl
      cases hstart
    have hshape : (array (d :: items)).chars ++ rest = '[' :: c :: (cs ++ more ++ ']' :: rest) := by
      rw [chars, itemsChars, hcommas, hchars]
      simp
    rw [itemsChars, hcommas, hchars] at hread
    rw [hshape, readValue_array (not_isSpace_of_startsValue hstart) hend]
    exact congrArg _ hread
  | .object [], _, fuel + 1, _, rest, _ => by
    show readValue (fuel + 1) ('{' :: '}' :: rest) = _
    rw [readValue, skipSpace_cons rfl]
    simp only
    rw [skipSpace_cons rfl]
    rfl
  | .object ((key, d) :: members), h, fuel + 1, hfuel, rest, _ => by
    rw [chars, List.cons_append, List.length_cons, List.length_append, List.length_singleton]
      at hfuel
    have hlength : (commas (membersChars ((key, d) :: members))).length + 1 < fuel := by omega
    have hread := readMembers_chars ((key, d) :: members) (List.cons_ne_nil _ _) h hlength rest
    obtain ⟨more, hcommas⟩ := commas_cons (spelled key ++ ':' :: d.chars) (membersChars members)
    have hshape : (object ((key, d) :: members)).chars ++ rest
        = '{' :: '"' :: (key.toList ++ '"' :: ':' :: d.chars ++ more ++ '}' :: rest) := by
      rw [chars, membersChars, hcommas]
      simp [spelled]
    rw [membersChars, hcommas] at hread
    rw [hshape, readValue_object]
    have hquote : spelled key ++ ':' :: d.chars ++ more ++ '}' :: rest
        = '"' :: (key.toList ++ '"' :: ':' :: d.chars ++ more ++ '}' :: rest) := by
      simp [spelled]
    rw [← hquote, hread]
    rfl

theorem readItems_chars : (items : List Document) → items ≠ [] → ItemsReadBack items →
    {fuel : Nat} → (commas (itemsChars items)).length + 1 < fuel → (rest : List Char) →
    readItems fuel (commas (itemsChars items) ++ ']' :: rest) = some (items, rest)
  | [d], _, h, fuel + 1, hfuel, rest => by
    rw [itemsChars, itemsChars, commas_singleton] at hfuel ⊢
    exact readItems_last (readValue_chars d h.1 (by omega)
      (notBefore_of_separates (.inr (.inl rfl)) rest))
  | d :: next :: items, _, h, fuel + 1, hfuel, rest => by
    rw [itemsChars, itemsChars, commas_cons_cons, ← itemsChars] at hfuel ⊢
    rw [List.length_append, List.length_cons] at hfuel
    obtain ⟨c, cs, hchars, -⟩ := exists_chars_eq_cons h.1
    have hpositive : 0 < d.chars.length := by simp [hchars]
    have hlength : (commas (itemsChars (next :: items))).length + 1 < fuel := by omega
    have hnext := readItems_chars (next :: items) (List.cons_ne_nil _ _) h.2 hlength rest
    rw [List.append_assoc, List.cons_append, readItems_next (readValue_chars d h.1 (by omega)
      (notBefore_of_separates (.inl rfl) _)), hnext]
    rfl

theorem readMembers_chars : (members : List (String × Document)) → members ≠ [] →
    MembersReadBack members → {fuel : Nat} → (commas (membersChars members)).length + 1 < fuel →
    (rest : List Char) →
    readMembers fuel (commas (membersChars members) ++ '}' :: rest) = some (members, rest)
  | [(key, d)], _, h, fuel + 1, hfuel, rest => by
    rw [membersChars, membersChars, commas_singleton] at hfuel ⊢
    rw [List.length_append, List.length_cons] at hfuel
    exact readMembers_last h.1 (readValue_chars d h.2.1 (by omega)
      (notBefore_of_separates (.inr (.inr rfl)) rest))
  | (key, d) :: (name, e) :: members, _, h, fuel + 1, hfuel, rest => by
    rw [membersChars, membersChars, commas_cons_cons, ← membersChars] at hfuel ⊢
    simp only [List.length_append, List.length_cons] at hfuel
    have hlength : (commas (membersChars ((name, e) :: members))).length + 1 < fuel := by omega
    have hnext := readMembers_chars ((name, e) :: members) (List.cons_ne_nil _ _) h.2.2 hlength rest
    rw [List.append_assoc, List.cons_append, readMembers_next h.1
      (readValue_chars d h.2.1 (by omega) (notBefore_of_separates (.inl rfl) _)), hnext]
    rfl
end

/-- A document is what its text is read as. -/
theorem parse_chars {d : Document} (h : d.ReadsBack) :
    Document.parse (String.ofList d.chars) = some d := by
  have hread := readValue_chars d h (Nat.lt_succ_self _) (notBefore_nil _)
  rw [List.append_nil] at hread
  rw [Document.parse, String.length_ofList, String.toList_ofList, hread]
  rfl

end Document

end DataTree
