import DataTree.Number.Decimal
import DataTree.Path.Basic
import DataTree.Text.Scan

/-!
# Paths as written

The syntax of a path before its rules are checked: every step may carry any
number of predicates of any kind.

```text
path       := ("//" | "/") steps ("/ancestor::" steps)?
steps      := step ("/" step)*
step       := name predicate*
predicate  := "[" (conditions | "text()" "=" string | "contains(" "@" name "," string ")") "]"
conditions := "@" name comparison literal (("and" | "or") "@" name comparison literal)*
```

Blanks are allowed inside the brackets, between any two tokens of a
predicate except after `@`.  A reader takes the characters still unread and
returns what it read together with the rest; a fault keeps the number of
bytes unread, from which the position follows.

## Main results

* `readPredicate_shorter`, `readStep_shorter` — each of these readers uses up at
  least one character, which is why the loops over them end.
-/

namespace DataTree.Path

open DataTree.Text

/-! ## Faults -/

/-- Why a text is not a path.  `unread` counts the bytes from the fault to
the end of the text. -/
inductive Fault where
  | noAnchor
  | expectedToken (token : String) (unread : Nat)
  | expectedName (unread : Nat)
  | expectedQuote (unread : Nat)
  | unterminatedQuote
  | expectedValue (unread : Nat)
  | expectedComparison (unread : Nat)
  | expectedConnective (unread : Nat)
  /-- A step before the last holds something else than `=` keys. -/
  | notListKeys (step : String)
  /-- A step before the last holds a function. -/
  | functionOnStep (step : String)
  | textNotAlone
  | textWithoutParent
  | secondConditionGroup
  | secondContains
  deriving DecidableEq, Repr

/-! ## Syntax -/

inductive Predicate where
  | conditions (group : ConditionGroup)
  | text (value : String)
  | contains (wanted : LeafText)
  deriving DecidableEq, Repr

structure WrittenStep where
  name : String
  predicates : List Predicate
  deriving DecidableEq, Repr

/-- A path before its rules are checked. -/
structure Expression where
  anchor : Anchor
  steps : Trail WrittenStep
  ancestor : Option (Trail WrittenStep)
  deriving DecidableEq, Repr

/-! ## Tokens -/

/-- The text after an expected token. -/
def token (t : String) (cs : List Char) : Except Fault (List Char) :=
  match after? t.toList cs with
  | some rest => .ok rest
  | none => .error (.expectedToken t (byteLength cs))

def isNameStart (c : Char) : Bool := c.isAlpha || c = '_'

def isNameChar (c : Char) : Bool := c.isAlphanum || c = '_' || c = '-' || c = '.'

def readIdentifier : List Char → Except Fault (List Char × List Char)
  | [] => .error (.expectedName 0)
  | c :: cs =>
    if isNameStart c then .ok (c :: cs.takeWhile isNameChar, cs.dropWhile isNameChar)
    else .error (.expectedName (byteLength (c :: cs)))

/-- A name: an identifier, or two of them joined by a colon.  A colon before
anything else is left unread. -/
def readName (cs : List Char) : Except Fault (String × List Char) :=
  match readIdentifier cs with
  | .error e => .error e
  | .ok (first, ':' :: c :: rest) =>
    if isNameStart c then
      .ok (String.ofList (first ++ ':' :: c :: rest.takeWhile isNameChar),
        rest.dropWhile isNameChar)
    else .ok (String.ofList first, ':' :: c :: rest)
  | .ok (first, rest) => .ok (String.ofList first, rest)

/-- A quoted value: everything up to the next quote of the same kind. -/
def readQuoted : List Char → Except Fault (String × List Char)
  | [] => .error (.expectedQuote 0)
  | q :: cs =>
    if q = '\'' || q = '"' then
      match cs.dropWhile (· ≠ q) with
      | [] => .error .unterminatedQuote
      | _ :: rest => .ok (String.ofList (cs.takeWhile (· ≠ q)), rest)
    else .error (.expectedQuote (byteLength (q :: cs)))

/-- The sign of an integer and the text after it. -/
def sign : List Char → Bool × List Char
  | '-' :: cs => (true, cs)
  | '+' :: cs => (false, cs)
  | cs => (false, cs)

def readInteger (cs : List Char) : Except Fault (Int × List Char) :=
  match Decimal.signed? (sign cs).1 ((sign cs).2.takeWhile Char.isDigit) with
  | some n => .ok (n, (sign cs).2.dropWhile Char.isDigit)
  | none => .error (.expectedValue (byteLength cs))

def readLiteral (cs : List Char) : Except Fault (Literal × List Char) :=
  match cs with
  | '\'' :: _ | '"' :: _ => (readQuoted cs).map fun r => (.text r.1, r.2)
  | _ => (readInteger cs).map fun r => (.integer r.1, r.2)

def readComparison : List Char → Except Fault (Comparison × List Char)
  | '>' :: '=' :: rest => .ok (.atLeast, rest)
  | '<' :: '=' :: rest => .ok (.atMost, rest)
  | '=' :: rest => .ok (.equal, rest)
  | '>' :: rest => .ok (.greater, rest)
  | '<' :: rest => .ok (.less, rest)
  | cs => .error (.expectedComparison (byteLength cs))

/-! ## Conditions and predicates -/

def readCondition (cs : List Char) : Except Fault (Condition × List Char) := do
  let cs ← token "@" cs
  let (leaf, cs) ← readName cs
  let (comparison, cs) ← readComparison (skipBlank cs)
  let (value, cs) ← readLiteral (skipBlank cs)
  return (⟨leaf, comparison, value⟩, cs)

def readConnective? (cs : List Char) : Option (Connective × List Char) :=
  match after? "and".toList cs with
  | some rest => some (.and, rest)
  | none => (after? "or".toList cs).map fun rest => (.or, rest)

private theorem bind_ok {ε α β : Type} {x : Except ε α} {f : α → Except ε β} {b : β}
    (h : x >>= f = .ok b) : ∃ a, x = .ok a ∧ f a = .ok b := by
  cases x with
  | error e => cases h
  | ok a => exact ⟨a, rfl, h⟩

private theorem map_ok {ε α β : Type} {x : Except ε α} {f : α → β} {b : β}
    (h : x.map f = .ok b) : ∃ a, x = .ok a ∧ f a = b := by
  cases x with
  | error e => cases h
  | ok a => exact ⟨a, rfl, by simpa [Except.map] using h⟩

theorem token_eq_ok_iff {t : String} {cs rest : List Char} :
    token t cs = .ok rest ↔ cs = t.toList ++ rest := by
  unfold token
  split
  · rename_i r h
    rw [after?_eq_some_iff] at h
    simp [h]
  · rename_i h
    constructor
    · intro h'; cases h'
    · intro h'; rw [after?_eq_some_iff.mpr h'] at h; cases h

private theorem readIdentifier_shorter {cs rest : List Char} {s : List Char}
    (h : readIdentifier cs = .ok (s, rest)) : rest.length < cs.length := by
  cases cs with
  | nil => cases h
  | cons c cs =>
    simp only [readIdentifier] at h
    split at h
    · cases h
      have := length_dropWhile_le isNameChar cs
      simp; omega
    · cases h

theorem readName_shorter {cs rest : List Char} {s : String} (h : readName cs = .ok (s, rest)) :
    rest.length < cs.length := by
  unfold readName at h
  split at h
  · cases h
  · rename_i first c more hid
    have hlt := readIdentifier_shorter hid
    split at h
    · cases h
      have := length_dropWhile_le isNameChar more
      simp at hlt; omega
    · cases h; exact hlt
  · rename_i hid
    have hlt := readIdentifier_shorter hid
    cases h; exact hlt

private theorem readQuoted_shorter {cs rest : List Char} {s : String}
    (h : readQuoted cs = .ok (s, rest)) : rest.length < cs.length := by
  cases cs with
  | nil => cases h
  | cons q cs =>
    simp only [readQuoted] at h
    split at h
    · split at h
      · cases h
      · rename_i heq
        cases h
        have := length_dropWhile_le (· ≠ q) cs
        simp only [heq] at this
        simp at this ⊢; omega
    · cases h

private theorem sign_le (cs : List Char) : (sign cs).2.length ≤ cs.length := by
  unfold sign; split <;> simp

theorem readLiteral_le {cs rest : List Char} {v : Literal} (h : readLiteral cs = .ok (v, rest)) :
    rest.length ≤ cs.length := by
  have hint : ∀ {n : Int} {r : List Char}, readInteger cs = .ok (n, r) → r.length ≤ cs.length := by
    intro n r h
    unfold readInteger at h
    split at h
    · cases h
      exact Nat.le_trans (length_dropWhile_le _ _) (sign_le cs)
    · cases h
  unfold readLiteral at h
  split at h
  · obtain ⟨⟨s, r⟩, hq, he⟩ := map_ok h
    cases he; exact Nat.le_of_lt (readQuoted_shorter hq)
  · obtain ⟨⟨s, r⟩, hq, he⟩ := map_ok h
    cases he; exact Nat.le_of_lt (readQuoted_shorter hq)
  · obtain ⟨⟨n, r⟩, hq, he⟩ := map_ok h
    cases he; exact hint hq

private theorem readComparison_shorter {cs rest : List Char} {c : Comparison}
    (h : readComparison cs = .ok (c, rest)) : rest.length < cs.length := by
  unfold readComparison at h
  split at h <;> cases h <;> simp only [List.length_cons] <;> omega

theorem readCondition_shorter {cs rest : List Char} {c : Condition}
    (h : readCondition cs = .ok (c, rest)) : rest.length < cs.length := by
  unfold readCondition at h
  obtain ⟨c1, h1, h⟩ := bind_ok h
  obtain ⟨⟨leaf, c2⟩, h2, h⟩ := bind_ok h
  obtain ⟨⟨op, c3⟩, h3, h⟩ := bind_ok h
  obtain ⟨⟨v, c4⟩, h4, h⟩ := bind_ok h
  cases h
  have e1 := congrArg List.length (token_eq_ok_iff.mp h1)
  have e2 := readName_shorter h2
  have e3 := readComparison_shorter h3
  have e4 := readLiteral_le h4
  have e5 := length_skipBlank_le c2
  have e6 := length_skipBlank_le c3
  simp at e1
  omega

theorem readConnective?_shorter {cs rest : List Char} {k : Connective}
    (h : readConnective? cs = some (k, rest)) : rest.length < cs.length := by
  unfold readConnective? at h
  split at h
  · rename_i r hr
    cases h
    have := length_of_after? hr
    simp at this; omega
  · rw [Option.map_eq_some_iff] at h
    obtain ⟨r, hr, he⟩ := h
    cases he
    have := length_of_after? hr
    simp at this; omega

/-- The conditions after the first one, each behind its connective, up to
the closing bracket. -/
def readMoreConditions (cs : List Char) :
    Except Fault (List (Connective × Condition) × List Char) :=
  if cs.head? = some ']' then .ok ([], cs)
  else
    match _hk : readConnective? cs with
    | none => .error (.expectedConnective (byteLength cs))
    | some (k, afterWord) =>
      match _hc : readCondition (skipBlank afterWord) with
      | .error e => .error e
      | .ok (c, afterCondition) =>
        (readMoreConditions (skipBlank afterCondition)).map fun r => ((k, c) :: r.1, r.2)
termination_by cs.length
decreasing_by
  have h1 := readConnective?_shorter _hk
  have h2 := readCondition_shorter _hc
  have h3 := length_skipBlank_le afterWord
  have h4 := length_skipBlank_le afterCondition
  omega

/-- What follows `[text()`. -/
def readText (cs : List Char) : Except Fault (Predicate × List Char) := do
  let cs ← token "=" (skipBlank cs)
  let (value, cs) ← readQuoted (skipBlank cs)
  return (.text value, cs)

/-- What follows `[contains(`. -/
def readContains (cs : List Char) : Except Fault (Predicate × List Char) := do
  let cs ← token "@" (skipBlank cs)
  let (leaf, cs) ← readName cs
  let cs ← token "," (skipBlank cs)
  let (value, cs) ← readQuoted (skipBlank cs)
  let cs ← token ")" (skipBlank cs)
  return (.contains ⟨leaf, value⟩, cs)

def readConditions (cs : List Char) : Except Fault (Predicate × List Char) := do
  let (first, cs) ← readCondition cs
  let (rest, cs) ← readMoreConditions (skipBlank cs)
  return (.conditions ⟨first, rest⟩, cs)

/-- The content of a bracket. -/
def readBody (cs : List Char) : Except Fault (Predicate × List Char) :=
  match after? "text()".toList cs with
  | some rest => readText rest
  | none =>
    match after? "contains(".toList cs with
    | some rest => readContains rest
    | none => readConditions cs

def readPredicate (cs : List Char) : Except Fault (Predicate × List Char) := do
  let cs ← token "[" cs
  let (body, cs) ← readBody (skipBlank cs)
  let cs ← token "]" (skipBlank cs)
  return (body, cs)

theorem readMoreConditions_le {cs rest : List Char} {more : List (Connective × Condition)}
    (h : readMoreConditions cs = .ok (more, rest)) : rest.length ≤ cs.length := by
  fun_induction readMoreConditions cs generalizing more rest with
  | case1 => cases h; exact Nat.le_refl _
  | case2 => cases h
  | case3 => cases h
  | case4 cs _ k afterWord hk c afterCondition hc ih =>
    obtain ⟨⟨m, r⟩, hm, he⟩ := map_ok h
    cases he
    have h0 := ih hm
    simp only at *
    have h1 := readConnective?_shorter hk
    have h2 := readCondition_shorter hc
    have h3 := length_skipBlank_le afterWord
    have h4 := length_skipBlank_le afterCondition
    omega

private theorem readBody_le {cs rest : List Char} {p : Predicate}
    (h : readBody cs = .ok (p, rest)) : rest.length ≤ cs.length := by
  unfold readBody at h
  split at h
  · rename_i r hr
    have h0 := length_of_after? hr
    obtain ⟨c1, h1, h⟩ := bind_ok h
    obtain ⟨⟨v, c2⟩, h2, h⟩ := bind_ok h
    cases h
    have e1 := congrArg List.length (token_eq_ok_iff.mp h1)
    have e2 := readQuoted_shorter h2
    have e3 := length_skipBlank_le r
    have e4 := length_skipBlank_le c1
    simp at e1; omega
  · split at h
    · rename_i r hr
      have h0 := length_of_after? hr
      obtain ⟨c1, h1, h⟩ := bind_ok h
      obtain ⟨⟨leaf, c2⟩, h2, h⟩ := bind_ok h
      obtain ⟨c3, h3, h⟩ := bind_ok h
      obtain ⟨⟨v, c4⟩, h4, h⟩ := bind_ok h
      obtain ⟨c5, h5, h⟩ := bind_ok h
      cases h
      have e1 := congrArg List.length (token_eq_ok_iff.mp h1)
      have e2 := readName_shorter h2
      have e3 := congrArg List.length (token_eq_ok_iff.mp h3)
      have e4 := readQuoted_shorter h4
      have e5 := congrArg List.length (token_eq_ok_iff.mp h5)
      have f1 := length_skipBlank_le r
      have f2 := length_skipBlank_le c2
      have f3 := length_skipBlank_le c3
      have f4 := length_skipBlank_le c4
      simp at e1 e3 e5; omega
    · obtain ⟨⟨c, c1⟩, h1, h⟩ := bind_ok h
      obtain ⟨⟨m, c2⟩, h2, h⟩ := bind_ok h
      cases h
      have e1 := readCondition_shorter h1
      have e2 := readMoreConditions_le h2
      have f1 := length_skipBlank_le c1
      omega

/-- A predicate uses up its brackets. -/
theorem readPredicate_shorter {cs rest : List Char} {p : Predicate}
    (h : readPredicate cs = .ok (p, rest)) : rest.length < cs.length := by
  unfold readPredicate at h
  obtain ⟨c1, h1, h⟩ := bind_ok h
  obtain ⟨⟨body, c2⟩, h2, h⟩ := bind_ok h
  obtain ⟨c3, h3, h⟩ := bind_ok h
  cases h
  have e1 := congrArg List.length (token_eq_ok_iff.mp h1)
  have e2 := readBody_le h2
  have e3 := congrArg List.length (token_eq_ok_iff.mp h3)
  have f1 := length_skipBlank_le c1
  have f2 := length_skipBlank_le c2
  simp at e1 e3; omega

/-! ## Steps -/

/-- The predicates of one step. -/
def readPredicates (cs : List Char) : Except Fault (List Predicate × List Char) :=
  if cs.head? = some '[' then
    match _h : readPredicate cs with
    | .error e => .error e
    | .ok (p, rest) => (readPredicates rest).map fun r => (p :: r.1, r.2)
  else .ok ([], cs)
termination_by cs.length
decreasing_by exact readPredicate_shorter _h

def readStep (cs : List Char) : Except Fault (WrittenStep × List Char) := do
  let (name, cs) ← readName cs
  let (predicates, cs) ← readPredicates cs
  return (⟨name, predicates⟩, cs)

theorem readPredicates_le {cs rest : List Char} {ps : List Predicate}
    (h : readPredicates cs = .ok (ps, rest)) : rest.length ≤ cs.length := by
  fun_induction readPredicates cs generalizing ps rest with
  | case1 => cases h
  | case2 cs _ p r hp ih =>
    obtain ⟨⟨m, r'⟩, hm, he⟩ := map_ok h
    cases he
    have := ih hm
    simp only at *
    have := readPredicate_shorter hp
    omega
  | case3 => cases h; exact Nat.le_refl _

/-- A step uses up its name. -/
theorem readStep_shorter {cs rest : List Char} {s : WrittenStep}
    (h : readStep cs = .ok (s, rest)) : rest.length < cs.length := by
  unfold readStep at h
  obtain ⟨⟨n, c1⟩, h1, h⟩ := bind_ok h
  obtain ⟨⟨ps, c2⟩, h2, h⟩ := bind_ok h
  cases h
  have e1 := readName_shorter h1
  have e2 := readPredicates_le h2
  omega

/-- The text after an ancestor axis, where one is allowed. -/
def axisTarget? (allowAxis : Bool) (cs : List Char) : Option (List Char) :=
  if allowAxis then after? "ancestor::".toList cs else none

/-- Steps up to the end of the text or, where one is allowed, to an ancestor
axis; the text after the axis is returned unread. -/
def readSteps (allowAxis : Bool) (cs : List Char) :
    Except Fault (Trail WrittenStep × Option (List Char)) :=
  match _hs : readStep cs with
  | .error e => .error e
  | .ok (s, rest) =>
    if rest.isEmpty then .ok (⟨[], s⟩, none)
    else
      match _hr : after? ['/'] rest with
      | none => .error (.expectedToken "/" (byteLength rest))
      | some more =>
        match axisTarget? allowAxis more with
        | some target => .ok (⟨[], s⟩, some target)
        | none => (readSteps allowAxis more).map fun r => (⟨s :: r.1.parents, r.1.last⟩, r.2)
termination_by cs.length
decreasing_by
  have h1 := readStep_shorter _hs
  have h2 := length_of_after? _hr
  simp at h2; omega

def readAnchor (cs : List Char) : Except Fault (Anchor × List Char) :=
  match cs with
  | '/' :: '/' :: rest => .ok (.descendant, rest)
  | '/' :: rest => .ok (.absolute, rest)
  | _ => .error .noAnchor

/-- Reads a whole text as a path, without checking its rules. -/
def Expression.read (cs : List Char) : Except Fault Expression := do
  let (anchor, afterAnchor) ← readAnchor cs
  let (main, axis) ← readSteps true afterAnchor
  match axis with
  | none => return ⟨anchor, main, none⟩
  | some target => do
    let (ancestor, _) ← readSteps false target
    return ⟨anchor, main, some ancestor⟩

end DataTree.Path
