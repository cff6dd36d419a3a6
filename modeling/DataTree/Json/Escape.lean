/-!
# Escapes in JSON strings

Between its quotes a JSON string spells some characters with a backslash.
Writing escapes only the quote, the backslash and the control characters.
Reading knows every escape of the format; a code unit escape of a surrogate
denotes a character together with the escape of the other half.

## Main results

* `unescape_escape` — what is written reads back.
-/

namespace DataTree.Json

/-! ## Writing -/

def hexDigit (n : Nat) : Char := ("0123456789abcdef".toList[n]?).getD '0'

/-- The spelling of one character. -/
def escapeChar (c : Char) : List Char :=
  if c = '"' then ['\\', '"']
  else if c = '\\' then ['\\', '\\']
  else if c = '\x08' then ['\\', 'b']
  else if c = '\t' then ['\\', 't']
  else if c = '\n' then ['\\', 'n']
  else if c = '\x0c' then ['\\', 'f']
  else if c = '\r' then ['\\', 'r']
  else if c.toNat < 32 then
    ['\\', 'u', '0', '0', hexDigit (c.toNat / 16), hexDigit (c.toNat % 16)]
  else [c]

/-- The spelling of a text between quotes. -/
def escape (cs : List Char) : List Char := cs.flatMap escapeChar

/-! ## Reading -/

def hexValue? (c : Char) : Option Nat :=
  if '0' ≤ c ∧ c ≤ '9' then some (c.toNat - '0'.toNat)
  else if 'a' ≤ c ∧ c ≤ 'f' then some (c.toNat - 'a'.toNat + 10)
  else if 'A' ≤ c ∧ c ≤ 'F' then some (c.toNat - 'A'.toNat + 10)
  else none

def isHex (c : Char) : Bool := (hexValue? c).isSome

/-- The number that hexadecimal digits denote. -/
def natOfHex (cs : List Char) : Nat :=
  cs.foldl (fun n c => 16 * n + (hexValue? c).getD 0) 0

def isHighSurrogate (unit : Nat) : Bool := 0xD800 ≤ unit && unit < 0xDC00

def isLowSurrogate (unit : Nat) : Bool := 0xDC00 ≤ unit && unit < 0xE000

/-- The character of a surrogate pair. -/
def joinSurrogates (high low : Nat) : Char :=
  Char.ofNat (0x10000 + (high - 0xD800) * 0x400 + (low - 0xDC00))

/-- Stands for a surrogate without its other half. -/
def replacementChar : Char := '\uFFFD'

/-- The character of a code unit that is no surrogate. -/
def charOfUnit (unit : Nat) : Char :=
  if isLowSurrogate unit then replacementChar else Char.ofNat unit

/-- The character of a one-letter escape. -/
def escapedLetter (c : Char) : Char :=
  if c = 'b' then '\x08'
  else if c = 't' then '\t'
  else if c = 'n' then '\n'
  else if c = 'f' then '\x0c'
  else if c = 'r' then '\r'
  else c

/-- The text that a spelling denotes; `pending` is a high surrogate that was
just read and waits for its low half. -/
def unescapeFrom (pending : Option Nat) : List Char → List Char
  | '\\' :: 'u' :: a :: b :: c :: d :: rest =>
    let unit := natOfHex [a, b, c, d]
    match pending with
    | some high =>
      if isLowSurrogate unit then joinSurrogates high unit :: unescapeFrom none rest
      else if isHighSurrogate unit then replacementChar :: unescapeFrom (some unit) rest
      else replacementChar :: charOfUnit unit :: unescapeFrom none rest
    | none =>
      if isHighSurrogate unit then unescapeFrom (some unit) rest
      else charOfUnit unit :: unescapeFrom none rest
  | '\\' :: c :: rest =>
    (pending.map fun _ => replacementChar).toList
      ++ escapedLetter c :: unescapeFrom none rest
  | c :: rest =>
    (pending.map fun _ => replacementChar).toList ++ c :: unescapeFrom none rest
  | [] => (pending.map fun _ => replacementChar).toList

/-- The text that a spelling denotes. -/
def unescape (cs : List Char) : List Char := unescapeFrom none cs

/-- Whether every surrogate in a spelling has its other half; `pending` says
that a high one was just read. -/
def pairedFrom (pending : Bool) : List Char → Bool
  | '\\' :: 'u' :: a :: b :: c :: d :: rest =>
    let unit := natOfHex [a, b, c, d]
    if pending then isLowSurrogate unit && pairedFrom false rest
    else if isHighSurrogate unit then pairedFrom true rest
    else !isLowSurrogate unit && pairedFrom false rest
  | '\\' :: _ :: rest => !pending && pairedFrom false rest
  | _ :: rest => !pending && pairedFrom false rest
  | [] => !pending

/-- The text that a spelling denotes, if its surrogates are paired. -/
def decode? (spelling : String) : Option String :=
  if pairedFrom false spelling.toList then
    some (String.ofList (unescape spelling.toList))
  else none

/-! ## Reading back -/

private theorem natOfHex_control :
    ∀ n < 32, natOfHex ['0', '0', hexDigit (n / 16), hexDigit (n % 16)] = n := by
  decide

private theorem unescape_plain {c : Char} (h : c ≠ '\\') (rest : List Char) :
    unescape (c :: rest) = c :: unescape rest := by
  unfold unescape
  rw [unescapeFrom.eq_def]
  split
  · rename_i heq; simp at heq; exact absurd heq.1 h
  · rename_i heq; simp at heq; exact absurd heq.1 h
  · rename_i heq; simp at heq; simp [heq]
  · rename_i heq; simp at heq

private theorem unescape_escapeChar_append (c : Char) (rest : List Char) :
    unescape (escapeChar c ++ rest) = c :: unescape rest := by
  unfold escapeChar
  split
  · rename_i h; subst h; rfl
  split
  · rename_i h; subst h; rfl
  split
  · rename_i h; subst h; rfl
  split
  · rename_i h; subst h; rfl
  split
  · rename_i h; subst h; rfl
  split
  · rename_i h; subst h; rfl
  split
  · rename_i h; subst h; rfl
  split
  · rename_i hlt
    have hunit := natOfHex_control c.toNat hlt
    have hhigh : isHighSurrogate c.toNat = false := by simp [isHighSurrogate]; omega
    have hlow : isLowSurrogate c.toNat = false := by simp [isLowSurrogate]; omega
    simp only [unescape, List.cons_append, List.nil_append, unescapeFrom, hunit, hhigh]
    simp [charOfUnit, hlow, Char.ofNat_toNat]
  · rename_i h _ _ _ _ _ _
    exact unescape_plain h rest

theorem unescape_escape (cs : List Char) : unescape (escape cs) = cs := by
  induction cs with
  | nil => rfl
  | cons c cs ih =>
    have h := unescape_escapeChar_append c (escape cs)
    simp only [escape, List.flatMap_cons] at h ih ⊢
    rw [h, ih]

end DataTree.Json
