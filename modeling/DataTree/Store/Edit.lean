import DataTree.Store.Draft
import DataTree.Store.Tables

/-!
# Edits and how they are applied

A write is planned as a list of edits, each of which removes one row with
its descendants, gives one row new leaves, or inserts a draft.  An edit
conflicts if its row is not as it was when the edit was planned, or if a
path to insert is taken.

Edits are applied all together; only if one of them conflicts, each is
applied by itself and the conflicting ones are skipped and reported.  A write
that has to happen as a whole is applied once, reports every conflict, and
leaves nothing behind if there was one.

## Main definitions

* `Edit.apply` — one edit.
* `applyWithFallback`, `applyAsUnit` — the two ways of applying many.

## Main results

* `mem_inOrder` — the order in which edits are applied keeps all of them.
-/

namespace DataTree

/-- How many rows a write changed. -/
structure Summary where
  /-- Rows that were given new leaves. -/
  updated : Nat := 0
  /-- Rows inserted, descendants included. -/
  inserted : Nat := 0
  /-- Rows removed by themselves; what went with them is not counted. -/
  deleted : Nat := 0
  deriving DecidableEq, Repr

namespace Summary

def isEmpty (s : Summary) : Bool := s = {}

def add (a b : Summary) : Summary :=
  ⟨a.updated + b.updated, a.inserted + b.inserted, a.deleted + b.deleted⟩

end Summary

/-- One change of rows. -/
inductive Edit where
  | remove (id : Nat) (path : String)
  | update (id : Nat) (path : String) (expected attributes : String)
  | insert (parent : Option Nat) (draft : Draft)
  deriving Repr, Inhabited

/-- Why an edit cannot be applied. -/
inductive Conflict where
  /-- The row changed or went since it was read. -/
  | stale
  /-- Another row has the path. -/
  | duplicate
  deriving DecidableEq, Repr

inductive EditFault where
  | conflict (path : String) (kind : Conflict)
  | engine (fault : EngineFault)
  deriving DecidableEq, Repr

/-! ## One edit -/

mutual
/-- Inserts a draft, each row before the rows below it.  On a fault the rows
inserted so far stay in the store returned. -/
def insertDraft (owner : Nat) (parent : Option Nat) :
    Draft → Store → Store × Except EditFault Nat
  | .mk path attributes children, s =>
    match s.insertRow owner path parent attributes with
    | .error .duplicate => (s, .error (.conflict path .duplicate))
    | .error (.engine fault) => (s, .error (.engine fault))
    | .ok (s', id) =>
      match insertDrafts owner (some id) children s' with
      | (s'', .ok count) => (s'', .ok (count + 1))
      | (s'', .error fault) => (s'', .error fault)

def insertDrafts (owner : Nat) (parent : Option Nat) :
    List Draft → Store → Store × Except EditFault Nat
  | [], s => (s, .ok 0)
  | d :: rest, s =>
    match insertDraft owner parent d s with
    | (s', .error fault) => (s', .error fault)
    | (s', .ok count) =>
      match insertDrafts owner parent rest s' with
      | (s'', .error fault) => (s'', .error fault)
      | (s'', .ok more) => (s'', .ok (count + more))
end

namespace Edit

/-- Applies one edit for an owner; on a fault the store returned may hold a
part of it. -/
def apply (owner : Nat) : Edit → Store → Store × Except EditFault Summary
  | .remove id path, s =>
    if s.hasRow id then
      if s.goesTooDeep (fun r => r.id = id) 0 then (s, .error (.engine .deepCascade))
      else ((s.removeRows fun r => r.id = id).1, .ok { deleted := 1 })
    else (s, .error (.conflict path .stale))
  | .update id path expected attributes, s =>
    match s.updateRow id expected attributes with
    | some s' => (s', .ok { updated := 1 })
    | none => (s, .error (.conflict path .stale))
  | .insert parent draft, s =>
    match insertDraft owner parent draft s with
    | (s', .ok count) => (s', .ok { inserted := count })
    | (s', .error fault) => (s', .error fault)

def isRemove : Edit → Bool
  | .remove .. => true
  | _ => false

def isUpdate : Edit → Bool
  | .update .. => true
  | _ => false

def isInsert : Edit → Bool
  | .insert .. => true
  | _ => false

end Edit

/-- Removals first, so that they free their paths, then updates, then
insertions; each kind in the order planned. -/
def inOrder (edits : List Edit) : List Edit :=
  edits.filter Edit.isRemove ++ edits.filter Edit.isUpdate ++ edits.filter Edit.isInsert

/-- Ordering drops no edit and adds none. -/
theorem mem_inOrder {e : Edit} {edits : List Edit} : e ∈ inOrder edits ↔ e ∈ edits := by
  cases e <;> simp [inOrder, Edit.isRemove, Edit.isUpdate, Edit.isInsert]

/-! ## Many edits -/

/-- Applies edits in turn up to the first fault. -/
def applyAll (owner : Nat) : List Edit → Store → Except EditFault (Store × Summary)
  | [], s => .ok (s, {})
  | e :: rest, s =>
    match e.apply owner s with
    | (_, .error fault) => .error fault
    | (s', .ok one) =>
      match applyAll owner rest s' with
      | .error fault => .error fault
      | .ok (s'', more) => .ok (s'', one.add more)

/-- What became of a list of edits. -/
inductive Applied where
  | complete (summary : Summary)
  /-- Some edits were skipped: their paths and what they conflicted with. -/
  | partly (summary : Summary) (skipped : Keyed Conflict)
  deriving DecidableEq, Repr

/-- The outcome for what was changed and what was skipped. -/
def Applied.of (summary : Summary) (skipped : Keyed Conflict) : Applied :=
  if skipped.isEmpty then .complete summary else .partly summary skipped

/-- Applies each edit by itself and skips those that conflict.  An engine
fault ends the run; the edits before it stay applied. -/
def applyEach (owner : Nat) :
    List Edit → Summary → Keyed Conflict → Store → Store × Except EngineFault Applied
  | [], summary, skipped, s => (s, .ok (.of summary skipped))
  | e :: rest, summary, skipped, s =>
    match e.apply owner s with
    | (s', .ok one) => applyEach owner rest (summary.add one) skipped s'
    | (_, .error (.conflict path kind)) =>
      applyEach owner rest summary (Keyed.insert path kind skipped) s
    | (_, .error (.engine fault)) => (s, .error fault)

/-- Applies edits all together or, if one conflicts, each by itself. -/
def applyWithFallback (owner : Nat) (edits : List Edit) (s : Store) :
    Store × Except EngineFault Applied :=
  match applyAll owner (inOrder edits) s with
  | .ok (s', summary) => (s', .ok (.complete summary))
  | .error (.engine fault) => (s, .error fault)
  | .error (.conflict ..) => applyEach owner (inOrder edits) {} [] s

/-- Applies edits in turn past every conflict, in one transaction: what a
conflicting edit did before its conflict is seen by the edits after it. -/
def applyThrough (owner : Nat) :
    List Edit → Summary → Keyed Conflict → Store →
      Except EngineFault (Store × Summary × Keyed Conflict)
  | [], summary, skipped, s => .ok (s, summary, skipped)
  | e :: rest, summary, skipped, s =>
    match e.apply owner s with
    | (s', .ok one) => applyThrough owner rest (summary.add one) skipped s'
    | (s', .error (.conflict path kind)) =>
      applyThrough owner rest summary (Keyed.insert path kind skipped) s'
    | (_, .error (.engine fault)) => .error fault

/-- Applies edits all or nothing. -/
def applyAsUnit (owner : Nat) (edits : List Edit) (s : Store) :
    Store × Except EngineFault Applied :=
  match applyThrough owner (inOrder edits) {} [] s with
  | .error fault => (s, .error fault)
  | .ok (s', summary, skipped) =>
    if skipped.isEmpty then (s', .ok (.complete summary)) else (s, .ok (.partly {} skipped))

/-! ## Answers -/

/-- The paths skipped for one kind of conflict. -/
def skippedPaths (kind : Conflict) (skipped : Keyed Conflict) : List String :=
  (skipped.filter fun e => e.2 = kind).map (·.1)

/-- The answer to a write: an error names every skipped path, and paths that
were taken come before rows that changed. -/
def Applied.answer (owner : Owner) : Applied → Outcome Summary
  | .complete summary => .ok summary
  | .partly _ skipped =>
    match skippedPaths .duplicate skipped with
    | [] => .error (.concurrent owner.name (skippedPaths .stale skipped))
    | taken => .error (.alreadyStored owner.name taken)

end DataTree
