/-!
# Scanning characters

Readers in this package work on the list of characters still unread and
return what is left.  This module holds the steps they share: dropping an
expected lead, splitting off the longest run of a class of characters, and
measuring text in bytes of its UTF-8 encoding, the unit of every reported
position.

## Main results

* `after?_eq_some_iff` — dropping a lead succeeds exactly on the texts that
  start with it, and returns the rest.
* `byteLength_append` — bytes of a concatenation add up, so a position can
  be computed from what is still unread.
-/

namespace DataTree.Text

/-! ## Dropping a lead -/

/-- What follows `lead` in the text, if the text starts with `lead`. -/
def after? : List Char → List Char → Option (List Char)
  | [], cs => some cs
  | _ :: _, [] => none
  | l :: lead, c :: cs => if l = c then after? lead cs else none

theorem after?_eq_some_iff {lead cs rest : List Char} :
    after? lead cs = some rest ↔ cs = lead ++ rest := by
  induction lead generalizing cs with
  | nil => simp [after?, eq_comm]
  | cons l lead ih =>
    cases cs with
    | nil => simp [after?]
    | cons c cs =>
      by_cases h : l = c
      · subst h; simp [after?, ih]
      · simp [after?, h, Ne.symm h]

/-- A text starts with any lead that was put before it. -/
@[simp] theorem after?_append (lead rest : List Char) :
    after? lead (lead ++ rest) = some rest :=
  after?_eq_some_iff.mpr rfl

theorem length_of_after? {lead cs rest : List Char} (h : after? lead cs = some rest) :
    cs.length = lead.length + rest.length := by
  simp [after?_eq_some_iff.mp h]

/-! ## Runs of a class -/

/-- Dropping a run never lengthens the text. -/
theorem length_dropWhile_le (p : Char → Bool) (cs : List Char) :
    (cs.dropWhile p).length ≤ cs.length :=
  (List.dropWhile_sublist p).length_le

/-- ASCII blanks: space, tab, line feed, form feed and carriage return. -/
def isBlank (c : Char) : Bool :=
  c = ' ' || c = '\t' || c = '\n' || c = '\x0c' || c = '\r'

/-- The text without its leading blanks. -/
def skipBlank (cs : List Char) : List Char := cs.dropWhile isBlank

theorem length_skipBlank_le (cs : List Char) : (skipBlank cs).length ≤ cs.length :=
  length_dropWhile_le isBlank cs

/-! ## Bytes -/

/-- Number of bytes of the UTF-8 encoding. -/
def byteLength : List Char → Nat
  | [] => 0
  | c :: cs => c.utf8Size + byteLength cs

@[simp] theorem byteLength_nil : byteLength [] = 0 := rfl

@[simp] theorem byteLength_append (a b : List Char) :
    byteLength (a ++ b) = byteLength a + byteLength b := by
  induction a with
  | nil => simp
  | cons c a ih => simp [byteLength, ih, Nat.add_assoc]

end DataTree.Text
