import DataTree.Store.Admin

/-!
# Requests

Everything that can change dataspaces, owners or rows is a request, so that
what holds after any run of requests can be stated once.  A request that is
refused may still have changed the store: a write that met conflicts keeps
what it did besides.

## Main definitions

* `Request.run` — the store after a request.
* `Request.refusal?` — the error that a request is refused with.
* `Reachable` — the stores that requests lead to.
-/

namespace DataTree

/-- Whatever changes dataspaces, owners or rows. -/
inductive Request where
  | createDataspace (name : String)
  | createOwner (dataspace : Dataspace) (name : String)
  | deleteOwner (owner : Owner)
  | write (owner : Owner) (write : Write)
  | deleteForOwners (dataspace : Dataspace) (names : List String)
  deriving Repr

/-- The store after a request, whether it was answered or refused. -/
def Request.run (access : Access) (s : Store) : Request → Store
  | .createDataspace name => (s.createDataspace access name).1
  | .createOwner dataspace name => (s.createOwner access dataspace name).1
  | .deleteOwner owner => (s.deleteOwner access owner).1
  | .write owner w => (s.write access owner w).1
  | .deleteForOwners dataspace names => (s.deleteForOwners access dataspace names).1

/-- The error of an outcome. -/
def Outcome.refusal? {α : Type} : Outcome α → Option StoreError
  | .ok _ => none
  | .error e => some e

/-- What a request is refused with, if it is not answered. -/
def Request.refusal? (access : Access) (s : Store) : Request → Option StoreError
  | .createDataspace name => Outcome.refusal? (s.createDataspace access name).2
  | .createOwner dataspace name => Outcome.refusal? (s.createOwner access dataspace name).2
  | .deleteOwner owner => Outcome.refusal? (s.deleteOwner access owner).2
  | .write owner w => Outcome.refusal? (s.write access owner w).2
  | .deleteForOwners dataspace names =>
    Outcome.refusal? (s.deleteForOwners access dataspace names).2

/-- The stores that requests lead to from an empty one. -/
inductive Reachable : Store → Prop where
  | empty : Reachable Store.empty
  | step (access : Access) (request : Request) {s : Store} :
      Reachable s → Reachable (request.run access s)

end DataTree
