import DataTree.Store.Error

/-!
# The tables of a store

A store holds dataspaces, their owners, and the rows of the owners' trees.
Each row is one node: its path, the row of its parent, and its leaves as
text.  Owners may be locked by sessions.

Rows are kept in the order of their ids.  A row is inserted after its parent
and ids are never used twice, so a parent always stands before its children,
and one pass over the rows meets every row after the rows it hangs under.

## Main definitions

* `Store.insertRow` — a new row, if its path is free and what it refers to
  is there.
* `Store.removeRows` — rows removed with everything below them.
* `Store.goesTooDeep` — whether the engine refuses to remove them.

## Main results

* `insertRow_eq_ok`, `updateRow_eq_some`, `survivors_sublist` — what the
  three changes of rows leave alone.
-/

namespace DataTree

/-- A named group of owners. -/
structure Dataspace where
  id : Nat
  name : String
  deriving DecidableEq, Repr

/-- A named collection of trees, as the store keeps it. -/
structure OwnerRow where
  id : Nat
  dataspaceId : Nat
  name : String
  deriving DecidableEq, Repr

/-- An owner as callers know it: what it was when it was looked up. -/
structure Owner where
  id : Nat
  dataspaceId : Nat
  dataspace : String
  name : String
  deriving DecidableEq, Repr

/-- One stored node. -/
structure Row where
  id : Nat
  owner : Nat
  path : String
  /-- Row of the parent; none for the root of a tree. -/
  parent : Option Nat
  /-- The leaves as text. -/
  attributes : String
  deriving DecidableEq, Repr

/-- A session's lock on an owner. -/
structure Lock where
  owner : Nat
  session : String
  /-- When the lease began, in milliseconds. -/
  acquiredAt : Int
  deriving DecidableEq, Repr

/-- Everything a store holds.  The last ids used are kept, since ids are
never used twice. -/
structure Store where
  dataspaces : List Dataspace := []
  owners : List OwnerRow := []
  rows : List Row := []
  locks : List Lock := []
  lastDataspace : Nat := 0
  lastOwner : Nat := 0
  lastRow : Nat := 0
  deriving DecidableEq, Repr

namespace Store

/-- A store with nothing in it. -/
def empty : Store := {}

/-! ## Looking rows up -/

/-- The row of an owner at exactly this path. -/
def rowAt? (s : Store) (owner : Nat) (path : String) : Option Row :=
  s.rows.find? fun r => r.owner = owner && r.path = path

/-- The rows of an owner that hang under a row, or the roots of its trees. -/
def childRows (s : Store) (owner : Nat) (parent : Option Nat) : List Row :=
  s.rows.filter fun r => r.owner = owner && r.parent = parent

def hasOwner (s : Store) (id : Nat) : Bool := s.owners.any fun o => o.id = id

def hasRow (s : Store) (id : Nat) : Bool := s.rows.any fun r => r.id = id

/-! ## Inserting -/

/-- Why a row cannot be inserted. -/
inductive RowFault where
  /-- The owner has a row at that path. -/
  | duplicate
  | engine (fault : EngineFault)
  deriving DecidableEq, Repr

/-- A new row under the next id. -/
def insertRow (s : Store) (owner : Nat) (path : String) (parent : Option Nat)
    (attributes : String) : Except RowFault (Store × Nat) :=
  if (s.rowAt? owner path).isSome then .error .duplicate
  else if s.hasOwner owner && parent.all s.hasRow then
    let id := s.lastRow + 1
    .ok ({ s with rows := s.rows ++ [⟨id, owner, path, parent, attributes⟩], lastRow := id }, id)
  else .error (.engine .foreignKey)

/-! ## Removing -/

/-- Whether a row hangs under one of the rows that are gone. -/
def hangsUnder (gone : List Nat) (r : Row) : Bool := r.parent.any gone.contains

/-- The rows that stay when the rows with `p` go, and with each of them
everything below it.  `gone` holds the ids of the removed rows before. -/
def survivors (p : Row → Bool) (gone : List Nat) : List Row → List Row
  | [] => []
  | r :: rest =>
    if p r || hangsUnder gone r then survivors p (r.id :: gone) rest
    else r :: survivors p gone rest

/-- How many rows with `p` go by themselves and not with a row above them. -/
def directRemovals (p : Row → Bool) (gone : List Nat) : List Row → Nat
  | [] => 0
  | r :: rest =>
    if hangsUnder gone r then directRemovals p (r.id :: gone) rest
    else if p r then directRemovals p (r.id :: gone) rest + 1
    else directRemovals p gone rest

/-- The store without the rows with `p` and everything below them, and the
number of rows that went by themselves. -/
def removeRows (s : Store) (p : Row → Bool) : Store × Nat :=
  ({ s with rows := survivors p [] s.rows }, directRemovals p [] s.rows)

/-! ## How far down a removal goes -/

/-- Rows go with those above them at so many levels, and no row further down does. -/
def maxCascade : Nat := 1000

/-- The level at which a row goes, if it does: rows with `p` that go by themselves do so
at the level `top`, and others one level below the row they hang under.  `gone` holds the
ids of the removed rows before with their levels. -/
def fallLevel? (p : Row → Bool) (top : Nat) (gone : List (Nat × Nat)) (r : Row) : Option Nat :=
  match r.parent.bind fun q => List.lookup q gone with
  | some level => some (level + 1)
  | none => if p r then some top else none

/-- Whether some row would have to go at a level that is not reached. -/
def sinks (p : Row → Bool) (top : Nat) (gone : List (Nat × Nat)) : List Row → Bool
  | [] => false
  | r :: rest =>
    match fallLevel? p top gone r with
    | some level => maxCascade ≤ level || sinks p top ((r.id, level) :: gone) rest
    | none => sinks p top gone rest

/-- Whether the engine refuses to remove the rows with `p`, where it begins at a level,
because there are rows too far below them. -/
def goesTooDeep (s : Store) (p : Row → Bool) (top : Nat) : Bool := sinks p top [] s.rows

/-! ## New leaves -/

/-- The store with new leaves in one row, if its leaves are still as
expected. -/
def updateRow (s : Store) (id : Nat) (expected attributes : String) : Option Store :=
  if s.rows.any fun r => r.id = id && r.attributes = expected then
    some { s with rows := s.rows.map fun r =>
      if r.id = id then { r with attributes := attributes } else r }
  else none

/-! ## What changes and what stays -/

/-- A row that is inserted comes last, under an id above all used before. -/
theorem insertRow_eq_ok {s s' : Store} {owner id : Nat} {path attributes : String}
    {parent : Option Nat} (h : s.insertRow owner path parent attributes = .ok (s', id)) :
    id = s.lastRow + 1 ∧ s'.lastRow = id
      ∧ s'.rows = s.rows ++ [⟨id, owner, path, parent, attributes⟩] := by
  unfold insertRow at h
  split at h
  · cases h
  · split at h
    · cases h
      exact ⟨rfl, rfl, rfl⟩
    · cases h

/-- Removing rows leaves the others as they are and in order. -/
theorem survivors_sublist (p : Row → Bool) (gone : List Nat) (rows : List Row) :
    (survivors p gone rows).Sublist rows := by
  induction rows generalizing gone with
  | nil => exact List.Sublist.refl _
  | cons r rest ih =>
    simp only [survivors]
    split
    · exact (ih _).cons _
    · exact (ih _).cons_cons _

/-- None of the rows that stay was to be removed. -/
theorem not_of_mem_survivors {p : Row → Bool} {gone : List Nat} {rows : List Row} {r : Row}
    (h : r ∈ survivors p gone rows) : p r = false := by
  induction rows generalizing gone with
  | nil => cases h
  | cons q rest ih =>
    simp only [survivors] at h
    split at h
    · exact ih h
    · rename_i hq
      rcases List.mem_cons.mp h with rfl | h
      · simp at hq; exact hq.1
      · exact ih h

/-- Giving a row new leaves changes no id, path, owner or parent. -/
theorem updateRow_eq_some {s s' : Store} {id : Nat} {expected attributes : String}
    (h : s.updateRow id expected attributes = some s') :
    s'.rows.map (fun r => (r.id, r.owner, r.path, r.parent))
      = s.rows.map fun r => (r.id, r.owner, r.path, r.parent) := by
  unfold updateRow at h
  split at h
  · cases h
    simp only [List.map_map]
    congr 1
    funext r
    simp only [Function.comp]
    split <;> rfl
  · cases h

end Store

end DataTree
