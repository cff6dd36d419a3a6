import DataTree.Text.Scan

/-!
# Matching stored paths

A stored path is matched as text.  Against an address it has to be equal, up
to one key predicate more at its end: `/a/b` matches `/a/b` and
`/a/b[@k='1']`.  Against a name at any depth it has to end in a slash and
that name, again up to one key predicate.  A key predicate is recognised
with regard to quotes, so brackets and slashes inside a key value do not
count, and the path of a list never matches the elements of a nested list.

## Main results

* `matchesAddress_iff` — a path matches an address exactly if it is the
  address followed by nothing or by one key predicate.
-/

namespace DataTree.Path

open DataTree.Text

/-! ## Key predicates -/

/-- Whether the first bracket that closes outside quotes ends the text and
no bracket opens before it; `quote` is the quote still open. -/
def closesAtEnd : Option Char → List Char → Bool
  | _, [] => false
  | some q, c :: cs => closesAtEnd (if c = q then none else some q) cs
  | none, c :: cs =>
    if c = '\'' || c = '"' then closesAtEnd (some c) cs
    else if c = '[' then false
    else if c = ']' then cs.isEmpty
    else closesAtEnd none cs

/-- Whether the text is exactly one `[@…]`. -/
def isKeyPredicate : List Char → Bool
  | '[' :: '@' :: cs => closesAtEnd none cs
  | _ => false

/-! ## Matching -/

/-- Whether `path` is the node at `address`, or an element of the list that
`address` names. -/
def matchesAddress (path address : List Char) : Bool :=
  match after? address path with
  | some rest => rest.isEmpty || isKeyPredicate rest
  | none => false

theorem matchesAddress_iff {path address : List Char} :
    matchesAddress path address = true
      ↔ path = address ∨ ∃ key, isKeyPredicate key = true ∧ path = address ++ key := by
  unfold matchesAddress
  split
  · rename_i rest h
    rw [after?_eq_some_iff] at h
    subst h
    cases rest with
    | nil => simp
    | cons c cs =>
      constructor
      · intro h; exact .inr ⟨c :: cs, by simpa using h, rfl⟩
      · rintro (h | ⟨key, hkey, h⟩)
        · simp at h
        · simp [List.append_cancel_left h, hkey]
  · rename_i h
    constructor
    · intro h'; cases h'
    · rintro (h' | ⟨key, _, h'⟩)
      · rw [after?_eq_some_iff.mpr (by simpa using h' : path = address ++ [])] at h; cases h
      · rw [after?_eq_some_iff.mpr h'] at h; cases h

/-- What follows each occurrence of `first :: more` in a text, scanning from
the left and going on behind every occurrence found. -/
def afterOccurrences (first : Char) (more : List Char) (cs : List Char) : List (List Char) :=
  match cs with
  | [] => []
  | c :: rest =>
    match _h : if c = first then after? more rest else none with
    | some after => after :: afterOccurrences first more after
    | none => afterOccurrences first more rest
termination_by cs.length
decreasing_by
  · split at _h
    · have := length_of_after? _h
      simp; omega
    · cases _h
  · simp

/-- Whether `path` is a node called `name` at any depth, or an element of a
list called `name`; `name` may span several steps. -/
def matchesAnywhere (path name : List Char) : Bool :=
  ('/' :: name).isSuffixOf path
    || (afterOccurrences '/' (name ++ ['[', '@']) path).any fun rest =>
      isKeyPredicate ('[' :: '@' :: rest)

/-- Matches a path against an address or, for `descendant`, against a name
at any depth. -/
def pathMatches (path target : String) (descendant : Bool) : Bool :=
  if descendant then matchesAnywhere path.toList target.toList
  else matchesAddress path.toList target.toList

end DataTree.Path
