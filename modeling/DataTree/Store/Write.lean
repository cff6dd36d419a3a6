import DataTree.Store.Lookup
import DataTree.Store.Reconcile

/-!
# Writes to the trees of an owner

A write is planned against the store as it is and then carried out.  The
plan, a `Change`, checks and looks up everything before the first row is
touched, so a request that makes no sense changes nothing; only conflicts
and faults of the engine can still come up when it is carried out.

## Main definitions

* `Write` — the writes there are.
* `Write.plan` — what a write will do, or why it is refused.
* `Change.commit` — a plan carried out.
* `Store.write` — both, through a handle that may only read or also write.
-/

namespace DataTree

/-- What a handle may do with its store. -/
inductive Access where
  | readOnly
  | readWrite
  deriving DecidableEq, Repr

/-- A write to the trees of one owner. -/
inductive Write where
  /-- New trees. -/
  | store (nodes : List Node)
  /-- New subtrees under the node at a path. -/
  | add (parent : String) (nodes : List Node)
  /-- New list elements under the node at a path. -/
  | addList (parent : String) (elements : List Node)
  /-- Leaves merged into those of the node at a path. -/
  | updateLeaves (path : String) (leaves : Leaves)
  /-- Leaves merged into those of the nodes at many paths. -/
  | updateBatch (updates : Keyed Leaves)
  /-- Stored subtrees made equal to the nodes given. -/
  | updateTrees (nodes : List Node)
  /-- The elements of one list under the node at a path made equal to the
  nodes given. -/
  | replaceList (parent : String) (elements : List Node)
  /-- The nodes at a path removed. -/
  | delete (path : String)
  /-- The nodes at many paths removed, if there are some at each. -/
  | deleteMany (paths : List String)
  /-- A list or a list element removed. -/
  | deleteList (path : String)
  /-- All trees removed. -/
  | deleteAll
  deriving Repr

/-- What a write will do to the rows. -/
inductive Change where
  /-- Edits applied all together or, if one conflicts, each by itself. -/
  | edits (edits : List Edit)
  /-- Edits applied all or nothing. -/
  | unit (edits : List Edit)
  /-- Rows removed by their ids. -/
  | removal (ids : List Nat)
  /-- All trees of the owner removed. -/
  | clear
  deriving Repr

/-! ## Insertions -/

/-- The drafts of nodes that go under a parent, each of which has to lie
below it. -/
def draftsUnder (parent : String) : List Node → Outcome (List Draft)
  | [] => .ok []
  | n :: rest => do
    let ds ← n.drafts
    match ds.find? fun d => !(Path.isRoot parent || Node.isChildPath parent d.path) with
    | some d => .error (.invalidNode (.childOutsideParent parent d.path))
    | none =>
      let more ← draftsUnder parent rest
      return ds ++ more

/-- The row that new nodes go under, none at the root marker, and its path. -/
def Store.parentNamed (s : Store) (owner : Owner) (path : String) :
    Outcome (Option Nat × String) :=
  if Path.isRoot path then .ok (none, path)
  else (s.rowNamed owner path).map fun r => (some r.id, r.path)

/-- The insertion of new trees. -/
def planStore (nodes : List Node) : Outcome Change :=
  (Node.draftsOfAll nodes).map fun ds => .edits (ds.map (.insert none))

/-- The insertion of subtrees under a node. -/
def planAdd (s : Store) (owner : Owner) (parent : String) (nodes : List Node) :
    Outcome Change := do
  let (id, path) ← s.parentNamed owner parent
  let ds ← draftsUnder path nodes
  return .edits (ds.map (.insert id))

/-- The insertion of list elements under a node. -/
def planAddList (s : Store) (owner : Owner) (parent : String) (elements : List Node) :
    Outcome Change :=
  match elements.find? fun n => !Path.namesListElement n.path with
  | some n => .error (.invalidRequest s!"'{n.path}' is not a list element")
  | none => planAdd s owner parent elements

/-! ## Updates -/

/-- The edit that merges leaves into those of the row at a path; paths that
are malformed or name no row are left out. -/
def mergeEdits (s : Store) (owner : Nat) (path : String) (leaves : Leaves) :
    Outcome (List Edit) :=
  match (Path.normalize path).toOption.bind (s.rowAt? owner) with
  | none => .ok []
  | some r =>
    match Leaves.parse r.attributes with
    | none => .error .unreadableLeaves
    | some old =>
      let merged := Keyed.insertAll old leaves
      .ok (if Leaves.same merged old then []
        else [.update r.id r.path r.attributes (Leaves.text merged)])

/-- The edits for a list of updates. -/
def batchEdits (s : Store) (owner : Nat) : List (String × Leaves) → Outcome (List Edit)
  | [] => .ok []
  | (path, leaves) :: rest => do
    let own ← mergeEdits s owner path leaves
    let more ← batchEdits s owner rest
    return own ++ more

/-- The merging of leaves into the node at a path. -/
def planUpdateLeaves (s : Store) (owner : Owner) (path : String) (leaves : Leaves) :
    Outcome Change := do
  let target ← (Path.normalize path).mapError .badPath
  return .edits (← batchEdits s owner.id [(target, leaves)])

/-- The edits that make the stored subtrees equal to drafts; drafts of nodes
that are not stored are left out. -/
def updateEdits (s : Store) (owner : Nat) : List Draft → Outcome (List Edit)
  | [] => .ok []
  | d :: rest => do
    let own ←
      match s.rowAt? owner d.path with
      | some r => reconcile s.rows r d
      | none => .ok []
    let more ← updateEdits s owner rest
    return own ++ more

/-- The update of stored subtrees. -/
def planUpdateTrees (s : Store) (owner : Owner) (nodes : List Node) : Outcome Change := do
  let ds ← Node.draftsOfAll nodes
  return .edits (← updateEdits s owner.id ds)

/-! ## Replacing a list -/

/-- The address of the list that a path names an element of. -/
def listAddress (path : String) : Outcome String := do
  let q ← (Path.Query.parse path).mapError .badPath
  if q.namesListElement then return q.address
  else .error (.invalidRequest s!"'{path}' is not a list element")

/-- The replacement of a list, named by its first new element. -/
def planReplaceList (s : Store) (owner : Owner) (parent : String) :
    List Node → Outcome Change
  | [] => .error (.invalidRequest "a list cannot be replaced with no elements")
  | first :: rest => do
    let (id, path) ← s.parentNamed owner parent
    let ds ← draftsUnder path (first :: rest)
    let address ← listAddress first.path
    let lead := address ++ "["
    match ds.find? fun d => !d.path.startsWith lead with
    | some d =>
      .error (.invalidRequest s!"'{d.path}' is not an element of the list '{address}'")
    | none =>
      let stored := (s.childRows owner.id id).filter fun r => r.path.startsWith lead
      return .unit (← reconcileChildren s.rows id stored ds)

/-! ## Removals -/

/-- The removal of rows found at a path. -/
def removalOf (owner : Owner) (path : String) (rows : List Row) : Outcome Change :=
  if rows.isEmpty then .error (.nodeNotFound owner.name path)
  else .ok (.removal (rows.map Row.id))

/-- The removal of the nodes at a path. -/
def planDelete (s : Store) (owner : Owner) (path : String) : Outcome Change :=
  if Path.isRoot path then .ok .clear
  else do
    let target ← (Path.normalize path).mapError .badPath
    removalOf owner path (s.rowsAt owner.id target)

/-- Whether a path is malformed or names no row of an owner. -/
def isUnresolved (s : Store) (owner : Nat) (path : String) : Bool :=
  match Path.normalize path with
  | .error _ => true
  | .ok target => (s.rowsAt owner target).isEmpty

/-- The removal of the nodes at many paths. -/
def planDeleteMany (s : Store) (owner : Owner) (paths : List String) : Outcome Change :=
  if paths.any Path.isRoot then .ok .clear
  else
    match TextSet.ofList (paths.filter (isUnresolved s owner.id)) with
    | [] => .ok (.removal ((s.rowsAtAny owner.id paths).map Row.id))
    | unresolved => .error (.nodesNotFound owner.name unresolved)

/-- The removal of a list or of a list element. -/
def planDeleteList (s : Store) (owner : Owner) (path : String) : Outcome Change := do
  let q ← (Path.Query.parse path).mapError .badPath
  let rows := s.rowsAt owner.id q.normalized
  if !q.namesListElement && rows.any fun r => r.path = q.normalized then
    .error (.invalidRequest s!"'{path}' is neither a list nor a list element")
  else removalOf owner path rows

/-! ## Plans -/

/-- What a write will do, or why it is refused. -/
def Write.plan (s : Store) (owner : Owner) : Write → Outcome Change
  | .store nodes => planStore nodes
  | .add parent nodes => planAdd s owner parent nodes
  | .addList parent elements => planAddList s owner parent elements
  | .updateLeaves path leaves => planUpdateLeaves s owner path leaves
  | .updateBatch updates => (batchEdits s owner.id updates).map .edits
  | .updateTrees nodes => planUpdateTrees s owner nodes
  | .replaceList parent elements => planReplaceList s owner parent elements
  | .delete path => planDelete s owner path
  | .deleteMany paths => planDeleteMany s owner paths
  | .deleteList path => planDeleteList s owner path
  | .deleteAll => .ok .clear

namespace Change

/-- Whether a change touches the rows at all; a list without edits does
not. -/
def isWritten : Change → Bool
  | edits es | unit es => !es.isEmpty
  | removal _ | clear => true

/-- The answer to edits that were applied. -/
def answer (owner : Owner) : Except EngineFault Applied → Outcome Summary
  | .error fault => .error (.engine fault)
  | .ok applied => applied.answer owner

/-- The store and the answer after rows with `p` were removed. -/
def remove (s : Store) (p : Row → Bool) : Store × Outcome Summary :=
  if s.goesTooDeep p 0 then (s, .error (.engine .deepCascade))
  else ((s.removeRows p).1, .ok { deleted := (s.removeRows p).2 })

theorem remove_of_deep {s : Store} {p : Row → Bool} (h : s.goesTooDeep p 0 = true) :
    remove s p = (s, .error (.engine .deepCascade)) :=
  if_pos h

theorem remove_of_shallow {s : Store} {p : Row → Bool} (h : s.goesTooDeep p 0 = false) :
    remove s p = ((s.removeRows p).1, .ok { deleted := (s.removeRows p).2 }) :=
  if_neg (Bool.eq_false_iff.mp h)

theorem remove_eq_ok {s s' : Store} {p : Row → Bool} {summary : Summary}
    (h : remove s p = (s', .ok summary)) :
    s' = (s.removeRows p).1 ∧ summary = { deleted := (s.removeRows p).2 } := by
  rw [remove] at h
  split at h
  · cases h
  · cases h
    exact ⟨rfl, rfl⟩

/-- Rows are removed, or the engine refuses that. -/
theorem remove_eq_error {s : Store} {p : Row → Bool} {e : StoreError}
    (h : (remove s p).2 = .error e) : e = .engine .deepCascade ∧ (remove s p).1 = s := by
  rw [remove] at h ⊢
  split at h
  · rename_i hdeep
    cases h
    exact ⟨rfl, by rw [if_pos hdeep]⟩
  · cases h

/-- What holds before and after rows are removed holds in any case. -/
theorem remove_keeps {s : Store} {p : Row → Bool} (I : Store → Prop) (h : I s)
    (hremoved : I (s.removeRows p).1) : I (remove s p).1 := by
  rw [remove]
  split
  · exact h
  · exact hremoved

/-- Carries a change out. -/
def commit (s : Store) (owner : Owner) : Change → Store × Outcome Summary
  | edits es => (applyWithFallback owner.id es s).map id (answer owner)
  | unit es => (applyAsUnit owner.id es s).map id (answer owner)
  | removal ids => remove s fun r => ids.contains r.id
  | clear => remove s fun r => r.owner = owner.id && r.parent.isNone

end Change

/-- Carries a write out through a handle; one that may only read refuses
every change that touches the rows. -/
def Store.write (s : Store) (access : Access) (owner : Owner) (w : Write) :
    Store × Outcome Summary :=
  match w.plan s owner with
  | .error e => (s, .error e)
  | .ok change =>
    if access = .readOnly && change.isWritten then (s, .error (.engine .readOnly))
    else change.commit s owner

end DataTree
