import DataTree.Text.Scan

/-!
# Where a run of characters ends

Readers split off the longest run of a class of characters.  A run that was
written is split off whole in front of any text that does not go on with the
class.

## Main definitions

* `NotBefore` — the text does not go on with a class.

## Main results

* `takeWhile_append_of_notBefore`, `dropWhile_append_of_notBefore` — a run is
  split off whole.
-/

namespace DataTree.Text

/-- The text does not go on with a character of the class. -/
def NotBefore (p : Char → Bool) (rest : List Char) : Prop :=
  ∀ c ∈ rest.head?, p c = false

@[simp] theorem notBefore_nil (p : Char → Bool) : NotBefore p [] := by
  intro c hc
  cases hc

@[simp] theorem notBefore_cons (p : Char → Bool) (c : Char) (rest : List Char) :
    NotBefore p (c :: rest) ↔ p c = false := by
  simp [NotBefore]

theorem notBefore_append {p : Char → Bool} {c : Char} {w : List Char} (hw : w.head? = some c)
    (hc : p c = false) (rest : List Char) : NotBefore p (w ++ rest) := by
  cases w with
  | nil => cases hw
  | cons d w =>
      have hd : d = c := Option.some.inj hw
      simpa [hd] using hc

/-- A run of a class ends where the text stops going on with it. -/
theorem takeWhile_append_of_notBefore {p : Char → Bool} {w rest : List Char}
    (hw : ∀ c ∈ w, p c = true) (hrest : NotBefore p rest) :
    (w ++ rest).takeWhile p = w := by
  rw [List.takeWhile_append_of_pos hw]
  cases rest with
  | nil => simp
  | cons c rest =>
      have hc : p c = false := by simpa using hrest
      simp [hc]

theorem dropWhile_append_of_notBefore {p : Char → Bool} {w rest : List Char}
    (hw : ∀ c ∈ w, p c = true) (hrest : NotBefore p rest) :
    (w ++ rest).dropWhile p = rest := by
  rw [List.dropWhile_append_of_pos hw]
  cases rest with
  | nil => simp
  | cons c rest =>
      have hc : p c = false := by simpa using hrest
      simp [hc]

end DataTree.Text
