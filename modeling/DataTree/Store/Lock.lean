import DataTree.Settings.Basic
import DataTree.Store.Write

/-!
# Sessions and locks

A session started through a handle may lock owners.  A lock is a lease: its
holder keeps it until the lease runs out, the session is closed, or the
handle is dropped; renewing starts the lease again.  Locks are advice among
sessions and do not stop anyone from writing.

Time is an argument of every operation, in milliseconds.

## Main definitions

* `Handle.attempt` — one attempt to take a lock at one time.
* `Handle.lock` — attempts until a lock is taken or the time is up.
-/

namespace DataTree

/-! ## Locks of a store -/

/-- Whether a lock gives way to another: the session is the same, or the
lease has run out. -/
def Lock.yieldsTo (held wanted : Lock) (lease : Int) : Bool :=
  held.session = wanted.session || held.acquiredAt ≤ wanted.acquiredAt - lease

namespace Store

/-- The lock on an owner. -/
def lockOn? (s : Store) (owner : Nat) : Option Lock := s.locks.find? fun l => l.owner = owner

/-- The session that holds the lock on an owner. -/
def holder (s : Store) (owner : Owner) : Option String := (s.lockOn? owner.id).map Lock.session

/-- Puts a lock on an owner, unless a lock there does not give way. -/
def putLock (s : Store) (wanted : Lock) (lease : Int) : Except EngineFault Store :=
  match s.lockOn? wanted.owner with
  | some held =>
    if held.yieldsTo wanted lease then
      .ok { s with locks := s.locks.map fun l => if l.owner = wanted.owner then wanted else l }
    else .ok s
  | none =>
    if s.hasOwner wanted.owner then .ok { s with locks := s.locks ++ [wanted] }
    else .error .foreignKey

/-- The store without the locks of a session. -/
def releaseLocks (s : Store) (session : String) : Store :=
  { s with locks := s.locks.filter fun l => l.session ≠ session }

/-- The store with the leases of a session started again. -/
def restartLeases (s : Store) (session : String) (now : Int) : Store :=
  { s with locks := s.locks.map fun l =>
      if l.session = session then { l with acquiredAt := now } else l }

/-- How many locks a session holds. -/
def locksOf (s : Store) (session : String) : Nat :=
  (s.locks.filter fun l => l.session = session).length

end Store

/-! ## Handles -/

/-- An open store as one client holds it. -/
structure Handle where
  access : Access
  /-- Age at which a lock gives way to other sessions, in milliseconds. -/
  lease : Int
  /-- Sessions started through the handle and not closed. -/
  sessions : TextSet := []
  deriving DecidableEq, Repr

/-- A lease as a signed 64-bit number. -/
def leaseOf (lease : UInt64) : Int := (lease.toNat : Int).bmod UInt64.size

namespace Handle

/-- The handle with a session of a new id. -/
def start (h : Handle) (session : String) : Handle :=
  { h with sessions := TextSet.insert session h.sessions }

/-- Ends a session and releases its locks. -/
def close (h : Handle) (s : Store) (session : String) : Handle × Store × Outcome Unit :=
  if h.sessions.contains session then
    let ended := { h with sessions := h.sessions.filter fun x => x ≠ session }
    if h.access = .readOnly then (ended, s, .error (.engine .readOnly))
    else (ended, s.releaseLocks session, .ok ())
  else (h, s, .error (.sessionNotFound session))

/-- Tries once to take the lock on an owner; says whether the session holds
it then. -/
def attempt (h : Handle) (s : Store) (session : String) (owner : Owner) (now : Int) :
    Store × Outcome Bool :=
  if h.sessions.contains session then
    if h.access = .readOnly then (s, .error (.engine .readOnly))
    else
      match s.putLock ⟨owner.id, session, now⟩ h.lease with
      | .error fault => (s, .error (.engine fault))
      | .ok s' => (s', .ok (s'.holder owner = some session))
  else (s, .error (.sessionNotFound session))

/-- Takes the lock on an owner, waiting up to `timeout`; also returns the time
of the answer.  While nobody else acts, a lock gives way only by its age, so
besides the first attempt the last one decides. -/
def lock (h : Handle) (s : Store) (session : String) (owner : Owner) (now : Int)
    (timeout : Nat) : Store × Int × Outcome Unit :=
  match h.attempt s session owner now with
  | (s', .error e) => (s', now, .error e)
  | (s', .ok true) => (s', now, .ok ())
  | (s', .ok false) =>
    if timeout = 0 then (s', now, .error (.lockTimeout owner.name timeout))
    else
      let late := now + timeout
      match h.attempt s' session owner late with
      | (s'', .error e) => (s'', late, .error e)
      | (s'', .ok true) => (s'', late, .ok ())
      | (s'', .ok false) => (s'', late, .error (.lockTimeout owner.name timeout))

/-- Starts the leases of all locks of a session again; says how many there
are. -/
def renew (h : Handle) (s : Store) (session : String) (now : Int) : Store × Outcome Nat :=
  if h.sessions.contains session then
    if h.access = .readOnly then (s, .error (.engine .readOnly))
    else (s.restartLeases session now, .ok (s.locksOf session))
  else (s, .error (.sessionNotFound session))

/-- The store after the handle was dropped with its sessions open. -/
def drop (h : Handle) (s : Store) : Store :=
  if h.access = .readOnly then s else h.sessions.foldl Store.releaseLocks s

end Handle

end DataTree
