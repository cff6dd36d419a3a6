import DataTree.Store.Lock
import DataTree.Store.Request

/-!
# A store shared by clients

Any number of clients may have one store open, each through a handle of its
own.  A handle keeps the sessions that were started through it; the locks are
in the store, where all clients see them.  What clients do comes one after
the other in any order, each at the time that its clock shows.

## Main definitions

* `Action` — what a client does through its handle.
* `Shared.act`, `Shared.run` — the store and the handles after one event and
  after a history of them.
* `Handle.Grants`, `Event.Ends` — what starts the lease of a session on an
  owner, and what ends it early.
* `Shared.Leased` — whether a lease was started and not ended early.
-/

namespace DataTree

/-! ## Actions -/

/-- What a client does through its handle. -/
inductive Action where
  /-- A session of a new id. -/
  | start (session : String)
  | attempt (session : String) (owner : Owner)
  | renew (session : String)
  | close (session : String)
  | drop
  | request (asked : Request)
  deriving Repr

/-- The session that an action starts. -/
def Action.started? : Action → Option String
  | .start session => some session
  | .attempt .. | .renew _ | .close _ | .drop | .request _ => none

namespace Handle

/-- The handle after an action, unless it was dropped, and the store. -/
def serve (h : Handle) (s : Store) (now : Int) : Action → Option Handle × Store
  | .start session => (some (h.start session), s)
  | .attempt session owner => (some h, (h.attempt s session owner now).1)
  | .renew session => (some h, (h.renew s session now).1)
  | .close session =>
    let closed := h.close s session
    (some closed.1, closed.2.1)
  | .drop => (none, h.drop s)
  | .request asked => (some h, asked.run h.access s)

/-- Whether an action starts the lease of a session on an owner: the session
takes the lock, or holds it and renews. -/
def Grants (h : Handle) (s : Store) (now : Int) (session : String) (owner : Owner) :
    Action → Prop
  | .attempt asking asked =>
    asking = session ∧ asked.id = owner.id ∧ (h.attempt s session asked now).2 = .ok true
  | .renew asking =>
    asking = session ∧ s.holder owner = some session
      ∧ Outcome.refusal? (h.renew s session now).2 = none
  | .start _ | .close _ | .drop | .request _ => False

end Handle

/-- An action of one of the clients at the time that its clock shows. -/
structure Event (ι : Type) where
  client : ι
  now : Int
  action : Action

/-- Whether an event ends what a session started by a client has on an owner:
the session is closed, its handle is dropped, or the owner is deleted. -/
def Event.Ends {ι : Type} (client : ι) (session : String) (owner : Owner) (e : Event ι) : Prop :=
  match e.action with
  | .close closed => e.client = client ∧ closed = session
  | .drop => e.client = client
  | .request (.deleteOwner deleted) => deleted.id = owner.id
  | .start _ | .attempt .. | .renew _ | .request _ => False

instance {ι : Type} [DecidableEq ι] (client : ι) (session : String) (owner : Owner) :
    (e : Event ι) → Decidable (e.Ends client session owner)
  | ⟨_, _, .close _⟩ => inferInstanceAs (Decidable (_ ∧ _))
  | ⟨_, _, .drop⟩ => inferInstanceAs (Decidable (_ = _))
  | ⟨_, _, .request (.deleteOwner _)⟩ => inferInstanceAs (Decidable (_ = _))
  | ⟨_, _, .request (.createDataspace _)⟩ | ⟨_, _, .request (.createOwner ..)⟩
  | ⟨_, _, .request (.write ..)⟩ | ⟨_, _, .request (.deleteForOwners ..)⟩ | ⟨_, _, .start _⟩
  | ⟨_, _, .attempt ..⟩ | ⟨_, _, .renew _⟩ => inferInstanceAs (Decidable False)

/-! ## Shared stores -/

/-- A store with the handles of its clients. -/
structure Shared (ι : Type) where
  store : Store
  /-- The handle of a client, until it is dropped. -/
  handle? : ι → Option Handle

namespace Shared

variable {ι : Type}

/-- The sessions that a history starts, in turn. -/
def startedIn (history : List (Event ι)) : List String :=
  history.filterMap fun e => e.action.started?

/-- A store that every client has just opened for writing, with one lease. -/
def opened (lease : UInt64) (s : Store) : Shared ι :=
  ⟨s, fun _ => some { access := .readWrite, lease := leaseOf lease }⟩

variable [DecidableEq ι]

/-- What a client does changes the store and its own handle. -/
def act (c : Shared ι) (e : Event ι) : Shared ι :=
  match c.handle? e.client with
  | none => c
  | some h =>
    let served := h.serve c.store e.now e.action
    ⟨served.2, fun client => if client = e.client then served.1 else c.handle? client⟩

/-- The shared store after events in turn. -/
def run (c : Shared ι) (history : List (Event ι)) : Shared ι := history.foldl act c

/-- Whether a session of a client was given the lock on an owner at a time of
a history, or renewed it then, and nothing has ended that since. -/
def Leased (c : Shared ι) (history : List (Event ι)) (client : ι) (session : String)
    (owner : Owner) (since : Int) : Prop :=
  ∃ before e later, history = before ++ e :: later ∧ e.client = client ∧ e.now = since
    ∧ (∃ h, (c.run before).handle? client = some h
      ∧ h.Grants (c.run before).store since session owner e.action)
    ∧ ∀ f ∈ later, ¬f.Ends client session owner

end Shared

end DataTree
