import DataTree.Store.Lock
import DataTree.Store.Request

/-!
# Operations

Whatever is done with a store, through any handles and in any order, is a
list of operations: requests, and the locking of owners by sessions.  Reads
change nothing and starting a session changes the handle alone, so neither is
an operation here.  A lock that waits while others act is a number of locks
that do not wait.

## Main definitions

* `Operation.run` — the store after an operation.
* `Store.after` — the store after a list of them.
* `Operation.Spares` — whether an operation is about others than an owner.
-/

namespace DataTree

/-- Whatever changes a store. -/
inductive Operation where
  | request (access : Access) (request : Request)
  | lock (handle : Handle) (session : String) (owner : Owner) (now : Int) (timeout : Nat)
  | renew (handle : Handle) (session : String) (now : Int)
  | close (handle : Handle) (session : String)
  | drop (handle : Handle)
  deriving Repr

/-- The store after an operation, whether it was answered or refused. -/
def Operation.run (s : Store) : Operation → Store
  | .request access asked => asked.run access s
  | .lock handle session owner now timeout => (handle.lock s session owner now timeout).1
  | .renew handle session now => (handle.renew s session now).1
  | .close handle session => (handle.close s session).2.1
  | .drop handle => handle.drop s

/-- The store after operations in turn. -/
def Store.after (s : Store) (operations : List Operation) : Store :=
  operations.foldl Operation.run s

/-! ## Operations about others -/

/-- Whether a request is about others than an owner. -/
def Request.Spares (o : OwnerRow) : Request → Prop
  | .createDataspace _ | .createOwner _ _ => True
  | .deleteOwner owner | .write owner _ => owner.id ≠ o.id
  | .deleteForOwners dataspace names => ¬(dataspace.id = o.dataspaceId ∧ o.name ∈ names)

instance (o : OwnerRow) : (asked : Request) → Decidable (asked.Spares o)
  | .createDataspace _ | .createOwner _ _ => inferInstanceAs (Decidable True)
  | .deleteOwner owner | .write owner _ => inferInstanceAs (Decidable (owner.id ≠ o.id))
  | .deleteForOwners dataspace names =>
    inferInstanceAs (Decidable ¬(dataspace.id = o.dataspaceId ∧ o.name ∈ names))

/-- Whether an operation is about others than an owner; locks are advice and
touch nobody's trees. -/
def Operation.Spares (o : OwnerRow) : Operation → Prop
  | .request _ asked => asked.Spares o
  | .lock .. | .renew .. | .close .. | .drop .. => True

instance (o : OwnerRow) : (operation : Operation) → Decidable (operation.Spares o)
  | .request _ asked => inferInstanceAs (Decidable (asked.Spares o))
  | .lock .. | .renew .. | .close .. | .drop .. => inferInstanceAs (Decidable True)

end DataTree
