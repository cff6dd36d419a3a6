import DataTree.Node.Basic
import DataTree.Settings.Duration

/-!
# Why a request fails

Failures of a store: requests that do not make sense, things that are not
there or are there already, conflicts with rows as they are stored, and
faults of the storage engine itself.
-/

namespace DataTree

/-- A fault of the storage engine. -/
inductive EngineFault where
  /-- A row would refer to an owner, dataspace or parent that is not there. -/
  | foreignKey
  /-- A write through a store that was opened for reading. -/
  | readOnly
  /-- A query met leaves whose text cannot be read. -/
  | malformedText
  /-- A file that holds something else than a store. -/
  | notAStore
  /-- A query whose conditions nest too deep. -/
  | deepExpression
  /-- A removal that would go too far down below a row. -/
  | deepCascade
  deriving DecidableEq, Repr

def EngineFault.message : EngineFault → String
  | .foreignKey => "FOREIGN KEY constraint failed"
  | .readOnly => "attempt to write a readonly database"
  | .malformedText => "malformed JSON"
  | .notAStore => "file is not a database"
  | .deepExpression => "Expression tree is too large (maximum depth 1000)"
  | .deepCascade => "too many levels of trigger recursion"

/-- Why a request fails. -/
inductive StoreError where
  | engine (fault : EngineFault)
  | cannotOpen (file : String)
  | fileNotFound (file : String)
  | versionMismatch (expected found : Int)
  | dataspaceNotFound (name : String)
  | dataspaceExists (name : String)
  | ownerNotFound (dataspace owner : String)
  | ownerExists (dataspace owner : String)
  | nodeNotFound (owner path : String)
  | nodesNotFound (owner : String) (paths : TextSet)
  /-- Paths that were stored already. -/
  | alreadyStored (owner : String) (paths : TextSet)
  /-- Paths whose rows changed since they were read. -/
  | concurrent (owner : String) (paths : TextSet)
  | badPath (error : Path.PathError)
  | invalidNode (defect : Node.Defect)
  | invalidRequest (reason : String)
  /-- Stored leaves whose text is no object of leaves. -/
  | unreadableLeaves
  | sessionNotFound (session : String)
  | lockTimeout (owner : String) (milliseconds : Nat)
  deriving DecidableEq, Repr

def StoreError.message : StoreError → String
  | .engine fault => s!"SQLite error: {fault.message}"
  | .cannotOpen file =>
    s!"Failed to open database at '{file}': unable to open database file: {file}"
  | .fileNotFound file => s!"Database not found at: {file}"
  | .versionMismatch expected found =>
    s!"Schema version mismatch: expected {expected}, found {found}"
  | .dataspaceNotFound name => s!"Dataspace not found: {name}"
  | .dataspaceExists name => s!"Dataspace already exists: {name}"
  | .ownerNotFound dataspace owner =>
    s!"Owner '{owner}' not found in dataspace '{dataspace}'"
  | .ownerExists dataspace owner =>
    s!"Owner '{owner}' already exists in dataspace '{dataspace}'"
  | .nodeNotFound owner path => s!"Data node '{path}' not found for owner '{owner}'"
  | .nodesNotFound owner paths =>
    let listed := ", ".intercalate paths
    s!"Data nodes not found for owner '{owner}': {listed}"
  | .alreadyStored owner paths =>
    let listed := ", ".intercalate paths
    s!"Data nodes already exist for owner '{owner}': {listed}"
  | .concurrent owner paths =>
    let listed := ", ".intercalate paths
    s!"Concurrent modification of data nodes for owner '{owner}': {listed}"
  | .badPath error => error.message
  | .invalidNode defect => s!"Invalid data node: {defect.message}"
  | .invalidRequest reason => s!"Invalid request: {reason}"
  | .unreadableLeaves => "Attribute serialization failed"
  | .sessionNotFound session => s!"Session not found: {session}"
  | .lockTimeout owner milliseconds =>
    let waited := durationText milliseconds
    s!"Timed out after {waited} waiting for the lock on owner '{owner}'"

/-- The result of a part of a request. -/
abbrev Outcome (α : Type) := Except StoreError α

end DataTree
