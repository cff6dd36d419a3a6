import DataTree.Store.Write

/-!
# Batches carried out in steps

A client that merges leaves into many nodes reads the row of each by itself,
then writes all of them at once and, after a conflict, each by itself.  Every
one of these is a step, and between two steps of one client others may take
theirs.

## Main definitions

* `Batch.step` — one step of a client.
* `Crowd.run` — steps of many clients in some order.
* `Batch.merge`, `madeAt` — what a batch is to do to a row, and whether its
  answer says that it did.
-/

namespace DataTree

/-- Leaves that a client merges into nodes of an owner. -/
structure Batch where
  owner : Owner
  updates : Keyed Leaves
  deriving Repr

/-- How far a client has come with its batch. -/
inductive Stage where
  /-- Some updates are still to be read for; the edits of the others are
  planned. -/
  | reading (todo : List (String × Leaves)) (planned : List Edit)
  /-- There was a conflict; some edits are still to be applied, each by
  itself. -/
  | retrying (todo : List Edit) (summary : Summary) (skipped : Keyed Conflict)
  | done (answer : Outcome Summary)
  deriving Repr

/-- The answer to a batch that is done. -/
def Stage.answer? : Stage → Option (Outcome Summary)
  | .done answer => some answer
  | .reading .. | .retrying .. => none

namespace Batch

/-! ## Steps -/

/-- One step of a client: it reads one row, writes all rows that it read, or
writes one of them. -/
def step (b : Batch) (s : Store) : Stage → Store × Stage
  | .reading ((path, leaves) :: todo) planned =>
    match mergeEdits s b.owner.id path leaves with
    | .error e => (s, .done (.error e))
    | .ok own => (s, .reading todo (planned ++ own))
  | .reading [] planned =>
    match applyAll b.owner.id (inOrder planned) s with
    | .ok (s', summary) => (s', .done (.ok summary))
    | .error (.engine fault) => (s, .done (.error (.engine fault)))
    | .error (.conflict ..) => (s, .retrying (inOrder planned) {} [])
  | .retrying (e :: todo) summary skipped =>
    match e.apply b.owner.id s with
    | (s', .ok one) => (s', .retrying todo (summary.add one) skipped)
    | (_, .error (.conflict path kind)) =>
      (s, .retrying todo summary (Keyed.insert path kind skipped))
    | (_, .error (.engine fault)) => (s, .done (.error (.engine fault)))
  | .retrying [] summary skipped => (s, .done ((Applied.of summary skipped).answer b.owner))
  | .done answer => (s, .done answer)

/-! ## What a batch is to do -/

/-- The path that an update names, unless it is malformed. -/
def target? (update : String × Leaves) : Option String := (Path.normalize update.1).toOption

/-- The leaves that a batch has for a row. -/
def leavesFor? (b : Batch) (r : Row) : Option Leaves :=
  if r.owner = b.owner.id then
    (List.find? (fun u => target? u = some r.path) b.updates).map (·.2)
  else none

/-- The leaves of a row after a batch was merged into them. -/
def merge (b : Batch) (r : Row) (leaves : Leaves) : Leaves :=
  Keyed.insertAll leaves ((b.leavesFor? r).getD [])

/-- Whether the updates of a batch name different paths. -/
def Distinct (b : Batch) : Prop := (b.updates.filterMap target?).Nodup

instance (b : Batch) : Decidable b.Distinct :=
  inferInstanceAs (Decidable (b.updates.filterMap target?).Nodup)

end Batch

/-- Whether an answer says that the update of a path was made. -/
def madeAt (path : String) : Outcome Summary → Bool
  | .ok _ => true
  | .error (.concurrent _ paths) => !paths.contains path
  | .error _ => false

/-! ## Many clients -/

/-- Clients at one store. -/
structure Crowd (ι : Type) where
  store : Store
  stage : ι → Stage

namespace Crowd

variable {ι : Type}

/-- Clients that have not begun. -/
def start (batches : ι → Batch) (s : Store) : Crowd ι :=
  ⟨s, fun i => .reading (batches i).updates []⟩

variable [DecidableEq ι]

/-- The next step of one of the clients. -/
def step (batches : ι → Batch) (c : Crowd ι) (i : ι) : Crowd ι :=
  let next := (batches i).step c.store (c.stage i)
  ⟨next.1, fun j => if j = i then next.2 else c.stage j⟩

/-- Steps of clients in turn. -/
def run (batches : ι → Batch) (c : Crowd ι) (schedule : List ι) : Crowd ι :=
  schedule.foldl (step batches) c

end Crowd

end DataTree
