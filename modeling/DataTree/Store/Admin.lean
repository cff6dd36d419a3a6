import DataTree.Store.Write

/-!
# Dataspaces and owners

Dataspaces have names of their own, owners have names of their own within a
dataspace.  Removing an owner removes its rows and the lock on it.

## Main definitions

* `Store.createDataspace`, `Store.createOwner`, `Store.deleteOwner`.
* `Store.deleteForOwners` — the trees of many owners removed at once.
-/

namespace DataTree

namespace Store

/-! ## Dataspaces -/

/-- Runs a change of the store, which a handle that may only read refuses. -/
def guarded {α : Type} (access : Access) (s : Store) (change : Store × Outcome α) :
    Store × Outcome α :=
  if access = .readOnly then (s, .error (.engine .readOnly)) else change

/-- A new dataspace. -/
def createDataspace (s : Store) (access : Access) (name : String) :
    Store × Outcome Dataspace :=
  guarded access s <|
    if s.dataspaces.any fun d => d.name = name then (s, .error (.dataspaceExists name))
    else
      let d : Dataspace := ⟨s.lastDataspace + 1, name⟩
      ({ s with dataspaces := s.dataspaces ++ [d], lastDataspace := d.id }, .ok d)

/-- The dataspace of a name. -/
def resolveDataspace (s : Store) (name : String) : Outcome Dataspace :=
  match s.dataspaces.find? fun d => d.name = name with
  | some d => .ok d
  | none => .error (.dataspaceNotFound name)

/-! ## Owners -/

/-- A new owner in a dataspace. -/
def createOwner (s : Store) (access : Access) (dataspace : Dataspace) (name : String) :
    Store × Outcome Owner :=
  guarded access s <|
    if s.owners.any fun o => o.dataspaceId = dataspace.id && o.name = name then
      (s, .error (.ownerExists dataspace.name name))
    else if s.dataspaces.any fun d => d.id = dataspace.id then
      let o : OwnerRow := ⟨s.lastOwner + 1, dataspace.id, name⟩
      ({ s with owners := s.owners ++ [o], lastOwner := o.id },
        .ok ⟨o.id, dataspace.id, dataspace.name, name⟩)
    else (s, .error (.engine .foreignKey))

/-- An owner with the name of its dataspace, if that is there. -/
def describe? (s : Store) (o : OwnerRow) : Option Owner :=
  (s.dataspaces.find? fun d => d.id = o.dataspaceId).map fun d =>
    ⟨o.id, o.dataspaceId, d.name, o.name⟩

/-- The owner of a name in the dataspace of a name. -/
def resolveOwner (s : Store) (dataspace name : String) : Outcome Owner :=
  match (s.owners.filterMap s.describe?).find? fun o =>
      o.dataspace = dataspace && o.name = name with
  | some o => .ok o
  | none => .error (.ownerNotFound dataspace name)

/-- The owners of a dataspace in the order they were created. -/
def listOwners (s : Store) (dataspace : Dataspace) : List Owner :=
  (s.owners.filterMap s.describe?).filter fun o => o.dataspaceId = dataspace.id

/-- Removes an owner with its rows and the lock on it.  The rows are one level below
the owner. -/
def deleteOwner (s : Store) (access : Access) (owner : Owner) : Store × Outcome Unit :=
  guarded access s <|
    if s.hasOwner owner.id then
      if s.goesTooDeep (fun r => r.owner = owner.id) 1 then (s, .error (.engine .deepCascade))
      else ({ (s.removeRows fun r => r.owner = owner.id).1 with
          owners := s.owners.filter fun o => o.id ≠ owner.id
          locks := s.locks.filter fun l => l.owner ≠ owner.id }, .ok ())
    else (s, .error (.ownerNotFound owner.dataspace owner.name))

/-! ## Many owners at once -/

/-- Removes all trees of owners in turn, with a summary for each name. -/
def clearOwners (s : Store) : List OwnerRow → Store × Keyed Summary
  | [] => (s, [])
  | o :: rest =>
    let cleared := s.removeRows fun r => r.owner = o.id && r.parent.isNone
    let more := clearOwners cleared.1 rest
    (more.1, Keyed.insert o.name { deleted := cleared.2 } more.2)

/-- Whether the engine refuses to remove all trees of an owner, because one of them is too
deep. -/
def treesTooDeep (s : Store) (owner : Nat) : Bool :=
  s.goesTooDeep (fun r => r.owner = owner && r.parent.isNone) 0

/-- Removes all trees of the named owners of a dataspace; names without an
owner are left out.  If those of one owner are too deep, all stay. -/
def deleteForOwners (s : Store) (access : Access) (dataspace : Dataspace)
    (names : List String) : Store × Outcome (Keyed Summary) :=
  let owners := s.owners.filter fun o => o.dataspaceId = dataspace.id && names.contains o.name
  let cleared := s.clearOwners owners
  if owners.isEmpty then (s, .ok [])
  else
    guarded access s <|
      if owners.any fun o => s.treesTooDeep o.id then (s, .error (.engine .deepCascade))
      else (cleared.1, .ok cleared.2)

end Store

end DataTree
