/-!
# Keyed lists

A map from texts is kept as a list of pairs in increasing order of the keys,
so equal maps are equal lists, and a tree may hold maps of its own kind.
Texts are ordered by code points, which is also the byte order of their
UTF-8 encoding.

## Main results

* `find?_insert_self`, `find?_insert_ne` — inserting changes one key.
-/

namespace DataTree

/-- Pairs in increasing order of their keys. -/
abbrev Keyed (α : Type) := List (String × α)

namespace Keyed

variable {α : Type}

/-- The map with `value` at `key`, in place of what was there. -/
def insert (key : String) (value : α) : Keyed α → Keyed α
  | [] => [(key, value)]
  | (k, v) :: rest =>
    if key < k then (key, value) :: (k, v) :: rest
    else if key = k then (key, value) :: rest
    else (k, v) :: insert key value rest

/-- The value at `key`. -/
def find? (key : String) : Keyed α → Option α
  | [] => none
  | (k, v) :: rest => if key = k then some v else find? key rest

/-- `base` with all of `updates` inserted in turn. -/
def insertAll (base updates : Keyed α) : Keyed α :=
  updates.foldl (fun m entry => insert entry.1 entry.2 m) base

/-- The map of a list of pairs; of two pairs with one key the later stays. -/
def ofList (entries : List (String × α)) : Keyed α := insertAll [] entries

/-- The keys in order. -/
def keys (m : Keyed α) : List String := m.map (·.1)

/-- The values in the order of their keys. -/
def values (m : Keyed α) : List α := m.map (·.2)

@[simp] theorem find?_insert_self (key : String) (value : α) (m : Keyed α) :
    find? key (insert key value m) = some value := by
  induction m with
  | nil => simp [insert, find?]
  | cons e rest ih =>
    obtain ⟨k, v⟩ := e
    simp only [insert]
    split
    · simp [find?]
    · split
      · simp [find?]
      · rename_i h; simp [find?, h, ih]

theorem find?_insert_ne {key other : String} (h : other ≠ key) (value : α) (m : Keyed α) :
    find? other (insert key value m) = find? other m := by
  induction m with
  | nil => simp [insert, find?, h]
  | cons e rest ih =>
    obtain ⟨k, v⟩ := e
    simp only [insert]
    split
    · simp [find?, h]
    · split
      · rename_i hk; subst hk; simp [find?, h]
      · simp only [find?, ih]

end Keyed

/-- A set of texts in increasing order. -/
abbrev TextSet := List String

/-- The set with `s` in it. -/
def TextSet.insert (s : String) : TextSet → TextSet
  | [] => [s]
  | x :: rest =>
    if s < x then s :: x :: rest
    else if s = x then x :: rest
    else x :: TextSet.insert s rest

/-- The set of the members of a list. -/
def TextSet.ofList (texts : List String) : TextSet :=
  texts.foldl (fun set s => TextSet.insert s set) []

theorem TextSet.mem_insert {s x : String} {set : TextSet} :
    x ∈ TextSet.insert s set ↔ x = s ∨ x ∈ set := by
  induction set with
  | nil => simp [TextSet.insert]
  | cons y rest ih =>
    simp only [TextSet.insert]
    split
    · simp
    · split
      · rename_i h; subst h; simp
      · simp only [List.mem_cons, ih]
        constructor
        · rintro (h | h | h) <;> simp [h]
        · rintro (h | h | h) <;> simp [h]

end DataTree
