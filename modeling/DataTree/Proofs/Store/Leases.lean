import DataTree.Proofs.Store.Operations
import DataTree.Store.Shared

/-!
# Leases exclude other sessions

Clients that share a store lock owners through sessions of their own.  Once a
session was given a lock, nobody else gets it while the lease runs, unless the
session is closed, its handle is dropped, or the owner is deleted.  Locks do
not outlive that either: who holds one is a session that is open.

## Main definitions

* `Store.HeldSince` — a session has the lock on an owner, with a lease that is
  not older than some time.
* `Handle.Frees` — an action takes the lock on an owner from a session.
* `Shared.Proper` — the invariant of the handles: they write with one lease,
  no session is open in two of them, and each lock is of one that is open.
* `Shared.Holds` — the invariant of a lease that runs.

## Main results

* `putLock_eq_ok` — what putting a lock comes to.
* `Handle.heldSince_of_serve`, `Handle.locks_of_serve` — what an action through
  a handle leaves of the locks.
* `Shared.Proper.act`, `Shared.Holds.act` — every event keeps the invariants.
* `lease_excludes` — leases exclude other sessions, and locks are of open ones.
-/

namespace DataTree

/-- A lease below half the range is the number it is given as. -/
theorem leaseOf_eq {lease : UInt64} (h : lease.toNat < 2 ^ 63) : leaseOf lease = lease.toNat := by
  refine Int.bmod_eq_of_le ?_ ?_ <;> simp only [UInt64.size] <;> omega

/-! ## Locks of a store -/

namespace Store

/-- Whether a session has the lock on an owner, with a lease that started at a
time or later. -/
def HeldSince (s : Store) (owner : Nat) (session : String) (since : Int) : Prop :=
  ∃ l, s.lockOn? owner = some l ∧ l.session = session ∧ since ≤ l.acquiredAt

end Store

section Locks

variable {s s' : Store} {session : String} {since now lease : Int}

theorem lockOn?_eq_some {owner : Nat} {l : Lock} (h : s.lockOn? owner = some l) :
    l ∈ s.locks ∧ l.owner = owner := by
  have howner := List.find?_some h
  exact ⟨List.mem_of_find?_eq_some h, of_decide_eq_true howner⟩

/-- A change of locks that keeps their owners is seen in each lock. -/
theorem lockOn?_map (s : Store) {f : Lock → Lock} (hf : ∀ l, (f l).owner = l.owner)
    (owner : Nat) :
    Store.lockOn? { s with locks := s.locks.map f } owner = (s.lockOn? owner).map f := by
  have hsame : (fun l => decide (l.owner = owner)) ∘ f = fun l => decide (l.owner = owner) := by
    funext l
    simp only [Function.comp, hf l]
  rw [Store.lockOn?, List.find?_map, hsame]
  rfl

/-- A lock that is kept when locks go is still the one on its owner. -/
theorem lockOn?_filter {p : Lock → Bool} {owner : Nat} {l : Lock}
    (hlocks : s'.locks = s.locks.filter p) (h : s.lockOn? owner = some l) (hp : p l = true) :
    s'.lockOn? owner = some l := by
  obtain ⟨howner, before, later, heq, hbefore⟩ := List.find?_eq_some_iff_append.mp h
  rw [Store.lockOn?, hlocks, heq, List.filter_append, List.filter_cons_of_pos hp]
  refine List.find?_eq_some_iff_append.mpr ⟨howner, _, _, rfl, fun x hx => ?_⟩
  exact hbefore x (List.mem_of_mem_filter hx)

theorem lockOn?_restartLeases {owner : Nat} {l : Lock} (h : s.lockOn? owner = some l)
    (renewed : String) (now : Int) : (s.restartLeases renewed now).lockOn? owner
      = some (if l.session = renewed then { l with acquiredAt := now } else l) := by
  rw [Store.restartLeases, lockOn?_map s (fun l => ?_), h, Option.map_some]
  split <;> rfl

/-- A lock that does not give way stays; otherwise the lock that was put is
the one on its owner, and the locks on other owners stay. -/
theorem putLock_eq_ok {wanted : Lock} (h : s.putLock wanted lease = .ok s') :
    (∃ held, s.lockOn? wanted.owner = some held ∧ held.yieldsTo wanted lease = false ∧ s' = s)
      ∨ (∀ held, s.lockOn? wanted.owner = some held → held.yieldsTo wanted lease = true)
        ∧ s'.lockOn? wanted.owner = some wanted
        ∧ (∀ owner ≠ wanted.owner, s'.lockOn? owner = s.lockOn? owner)
        ∧ ∀ l ∈ s'.locks, l = wanted ∨ l ∈ s.locks := by
  rw [Store.putLock] at h
  split at h
  · rename_i held hheld
    split at h
    · rename_i hyields
      cases h
      have hmap := lockOn?_map s (f := fun l => if l.owner = wanted.owner then wanted else l)
        fun l => by split <;> simp [*]
      refine .inr ⟨fun l hl => ?_, ?_, fun owner howner => ?_, fun l hl => ?_⟩
      · obtain rfl := Option.some.inj (hheld.symm.trans hl)
        exact hyields
      · have howner := (lockOn?_eq_some hheld).2
        rw [hmap, hheld, Option.map_some, if_pos howner]
      · rw [hmap]
        cases hl : s.lockOn? owner with
        | none => rfl
        | some l =>
            have hlowner := (lockOn?_eq_some hl).2
            rw [Option.map_some, if_neg (hlowner ▸ howner)]
      · obtain ⟨old, hold, rfl⟩ := List.mem_map.mp hl
        split
        · exact .inl rfl
        · exact .inr hold
    · rename_i hyields
      cases h
      exact .inl ⟨held, hheld, Bool.eq_false_iff.mpr hyields, rfl⟩
  · rename_i hnone
    split at h
    · cases h
      have happend : ∀ owner, Store.lockOn? { s with locks := s.locks ++ [wanted] } owner
          = (s.lockOn? owner).or (if wanted.owner = owner then some wanted else none) := by
        intro owner
        rw [Store.lockOn?, List.find?_append, List.find?_singleton]
        simp [Store.lockOn?]
      refine .inr ⟨fun l hl => ?_, ?_, fun owner howner => ?_, fun l hl => ?_⟩
      · cases hnone.symm.trans hl
      · rw [happend, hnone, if_pos rfl, Option.none_or]
      · rw [happend, if_neg howner.symm, Option.or_none]
      · rcases List.mem_append.mp hl with hl | hl
        · exact .inr hl
        · exact .inl (List.mem_singleton.mp hl)
    · cases h

theorem locks_releaseLocks (s : Store) (sessions : List String) :
    (sessions.foldl Store.releaseLocks s).locks
      = s.locks.filter fun l => l.session ∉ sessions := by
  induction sessions generalizing s with
  | nil => simp
  | cons session rest ih =>
      rw [List.foldl_cons, ih, Store.releaseLocks, List.filter_filter]
      refine List.filter_congr fun l _ => ?_
      simp only [List.mem_cons, not_or, Bool.decide_and, Bool.and_comm]

/-! ## Locks that are held -/

namespace Store.HeldSince

variable {owner : Nat}

theorem holder_eq {o : Owner} (h : s.HeldSince o.id session since) :
    s.holder o = some session := by
  obtain ⟨l, hl, rfl, -⟩ := h
  rw [Store.holder, hl, Option.map_some]

theorem of_filter {p : Lock → Bool} (h : s.HeldSince owner session since)
    (hlocks : s'.locks = s.locks.filter p)
    (hp : ∀ l, l.owner = owner → l.session = session → p l = true) :
    s'.HeldSince owner session since := by
  obtain ⟨l, hl, hsession, hsince⟩ := h
  exact ⟨l, lockOn?_filter hlocks hl (hp l (lockOn?_eq_some hl).2 hsession), hsession, hsince⟩

/-- While the lease runs, a lock gives way to its own session only. -/
theorem putLock {wanted : Lock} (h : s.HeldSince owner session since)
    (hput : s.putLock wanted lease = .ok s') (hsince : since ≤ wanted.acquiredAt)
    (hlease : wanted.acquiredAt < since + lease) : s'.HeldSince owner session since := by
  obtain ⟨l, hl, hsession, hl'⟩ := h
  rcases putLock_eq_ok hput with ⟨-, -, -, rfl⟩ | ⟨hyields, hwanted, hothers, -⟩
  · exact ⟨l, hl, hsession, hl'⟩
  · by_cases howner : owner = wanted.owner
    · subst howner
      refine ⟨wanted, hwanted, ?_, hsince⟩
      have hlate := hyields l hl
      rw [Lock.yieldsTo, Bool.or_eq_true, decide_eq_true_eq, decide_eq_true_eq] at hlate
      rcases hlate with hsame | hlate
      · rw [← hsame, hsession]
      · omega
    · exact ⟨l, (hothers owner howner).trans hl, hsession, hl'⟩

theorem restartLeases (h : s.HeldSince owner session since) (hnow : since ≤ now)
    (renewed : String) : (s.restartLeases renewed now).HeldSince owner session since := by
  obtain ⟨l, hl, hsession, hsince⟩ := h
  refine ⟨_, lockOn?_restartLeases hl renewed now, ?_, ?_⟩
  · split <;> exact hsession
  · split
    · exact hnow
    · exact hsince

end Store.HeldSince

end Locks

/-! ## Handles -/

namespace Handle

/-- Whether an action through a handle takes the lock on an owner from a
session: the session is one of the handle and ends, or the owner is deleted. -/
def Frees (h : Handle) (session : String) (owner : Owner) : Action → Prop
  | .close closed => session ∈ h.sessions ∧ closed = session
  | .drop => session ∈ h.sessions
  | .request (.deleteOwner deleted) => deleted.id = owner.id
  | .start _ | .attempt .. | .renew _ | .request _ => False

variable {h : Handle} {s : Store} {session : String} {owner : Owner} {since now : Int}

theorem not_readOnly (hwrite : h.access = .readWrite) : h.access ≠ .readOnly := by
  rw [hwrite]
  decide

/-- An attempt through a handle that may write leaves the store alone or puts
a lock for a session of the handle. -/
theorem attempt_cases (hwrite : h.access = .readWrite) (s : Store) (session : String)
    (owner : Owner) (now : Int) :
    (∃ e, h.attempt s session owner now = (s, .error e))
      ∨ session ∈ h.sessions ∧ ∃ s', s.putLock ⟨owner.id, session, now⟩ h.lease = .ok s'
        ∧ h.attempt s session owner now = (s', .ok (s'.holder owner = some session)) := by
  rw [attempt]
  split
  · rename_i hopen
    rw [if_neg (not_readOnly hwrite)]
    cases hput : s.putLock ⟨owner.id, session, now⟩ h.lease with
    | error fault => exact .inl ⟨_, rfl⟩
    | ok s' => exact .inr ⟨List.contains_iff_mem.mp hopen, s', rfl, rfl⟩
  · exact .inl ⟨_, rfl⟩

/-- A handle that may write renews the leases of its sessions. -/
theorem renew_cases (hwrite : h.access = .readWrite) (s : Store) (session : String) (now : Int) :
    (∃ e, h.renew s session now = (s, .error e))
      ∨ session ∈ h.sessions
        ∧ h.renew s session now = (s.restartLeases session now, .ok (s.locksOf session)) := by
  rw [renew]
  split
  · rename_i hopen
    rw [if_neg (not_readOnly hwrite)]
    exact .inr ⟨List.contains_iff_mem.mp hopen, rfl⟩
  · exact .inl ⟨_, rfl⟩

/-- A handle that may write closes its sessions. -/
theorem close_cases (hwrite : h.access = .readWrite) (s : Store) (session : String) :
    (∃ e, h.close s session = (h, s, .error e))
      ∨ session ∈ h.sessions
        ∧ h.close s session = ({ h with sessions := h.sessions.filter fun x => x ≠ session },
          s.releaseLocks session, .ok ()) := by
  rw [close]
  split
  · rename_i hopen
    rw [if_neg (not_readOnly hwrite)]
    exact .inr ⟨List.contains_iff_mem.mp hopen, rfl⟩
  · exact .inl ⟨_, rfl⟩

/-- A handle that may write releases the locks of its sessions when it is
dropped. -/
theorem locks_drop (hwrite : h.access = .readWrite) (s : Store) :
    (h.drop s).locks = s.locks.filter fun l => l.session ∉ h.sessions := by
  rw [drop, if_neg (not_readOnly hwrite), locks_releaseLocks]

/-- Whoever gets a lock holds it from then on. -/
theorem heldSince_of_attempt (hwrite : h.access = .readWrite)
    (hok : (h.attempt s session owner now).2 = .ok true) :
    session ∈ h.sessions ∧ (h.attempt s session owner now).1.HeldSince owner.id session now := by
  rcases h.attempt_cases hwrite s session owner now with ⟨e, heq⟩ | ⟨hopen, s', hput, heq⟩
  · rw [heq] at hok
    cases hok
  · rw [heq] at hok ⊢
    have hholder : s'.holder owner = some session := of_decide_eq_true (Except.ok.inj hok)
    refine ⟨hopen, ?_⟩
    rcases putLock_eq_ok hput with ⟨held, hheld, hyields, rfl⟩ | ⟨-, hwanted, -, -⟩
    · rw [Store.holder, hheld] at hholder
      have hsession : held.session = session := Option.some.inj hholder
      simp [Lock.yieldsTo, hsession] at hyields
    · exact ⟨_, hwanted, rfl, le_rfl⟩

/-- Whoever renews the lock that it holds has a new lease on it. -/
theorem heldSince_of_renew (hwrite : h.access = .readWrite)
    (hholder : s.holder owner = some session)
    (hok : Outcome.refusal? (h.renew s session now).2 = none) :
    session ∈ h.sessions ∧ (h.renew s session now).1.HeldSince owner.id session now := by
  rcases h.renew_cases hwrite s session now with ⟨e, heq⟩ | ⟨hopen, heq⟩
  · rw [heq] at hok
    cases hok
  · rw [heq]
    obtain ⟨l, hl, hsession⟩ := Option.map_eq_some_iff.mp hholder
    refine ⟨hopen, _, lockOn?_restartLeases hl session now, ?_, ?_⟩
    · rw [if_pos hsession]
      exact hsession
    · rw [if_pos hsession]

theorem heldSince_of_grants (hwrite : h.access = .readWrite) {action : Action}
    (hgrants : h.Grants s now session owner action) :
    (h.serve s now action).1 = some h ∧ session ∈ h.sessions
      ∧ (h.serve s now action).2.HeldSince owner.id session now := by
  cases action with
  | attempt asking asked =>
      obtain ⟨rfl, howner, hok⟩ := hgrants
      rw [← howner]
      exact ⟨rfl, heldSince_of_attempt hwrite hok⟩
  | renew asking =>
      obtain ⟨rfl, hholder, hok⟩ := hgrants
      exact ⟨rfl, heldSince_of_renew hwrite hholder hok⟩
  | start _ => cases hgrants
  | close _ => cases hgrants
  | drop => cases hgrants
  | request _ => cases hgrants

/-- While the lease runs, a session keeps its lock through every action that
does not take it from the session. -/
theorem heldSince_of_serve (hwrite : h.access = .readWrite) (action : Action)
    (hheld : s.HeldSince owner.id session since) (hsince : since ≤ now)
    (hlease : now < since + h.lease) (hfrees : ¬h.Frees session owner action) :
    (h.serve s now action).2.HeldSince owner.id session since := by
  cases action with
  | start started => exact hheld
  | attempt asking asked =>
      rw [serve]
      rcases h.attempt_cases hwrite s asking asked now with ⟨e, heq⟩ | ⟨-, s', hput, heq⟩
      · rw [heq]
        exact hheld
      · rw [heq]
        exact hheld.putLock hput hsince hlease
  | renew renewed =>
      rw [serve]
      rcases h.renew_cases hwrite s renewed now with ⟨e, heq⟩ | ⟨-, heq⟩
      · rw [heq]
        exact hheld
      · rw [heq]
        exact hheld.restartLeases hsince renewed
  | close closed =>
      simp only [serve]
      rcases h.close_cases hwrite s closed with ⟨e, heq⟩ | ⟨hopen, heq⟩
      · rw [heq]
        exact hheld
      · rw [heq]
        refine hheld.of_filter rfl fun l _ hl => decide_eq_true fun hsame => hfrees ?_
        rw [hl] at hsame
        exact ⟨hsame ▸ hopen, hsame.symm⟩
  | drop =>
      refine hheld.of_filter (locks_drop hwrite s) fun l _ hl => ?_
      rw [hl]
      exact decide_eq_true hfrees
  | request asked =>
      rw [serve]
      rcases locks_run s h.access asked with hlocks | ⟨deleted, rfl, hlocks⟩
      · obtain ⟨l, hl, hheld⟩ := hheld
        exact ⟨l, by rwa [Store.lockOn?, hlocks], hheld⟩
      · refine hheld.of_filter hlocks fun l hl _ => decide_eq_true fun heq => hfrees ?_
        exact heq.symm.trans hl

/-- While the lease runs, no other session is given the lock. -/
theorem attempt_ne_of_heldSince (hwrite : h.access = .readWrite)
    (hheld : s.HeldSince owner.id session since) (hsince : since ≤ now)
    (hlease : now < since + h.lease) {asking : String} {asked : Owner} (hne : asking ≠ session)
    (howner : asked.id = owner.id) : (h.attempt s asking asked now).2 ≠ .ok true := by
  intro hok
  -- the attempt would leave both sessions with the lock
  have hkept : (h.attempt s asking asked now).1.HeldSince owner.id session since :=
    heldSince_of_serve hwrite (.attempt asking asked) hheld hsince hlease id
  have htaken := (heldSince_of_attempt hwrite hok).2
  rw [howner] at htaken
  exact hne (Option.some.inj (htaken.holder_eq.symm.trans hkept.holder_eq))

/-- A session stays open through every action that does not end it. -/
theorem exists_open_of_serve {action : Action} (hopen : session ∈ h.sessions)
    (hfrees : ¬h.Frees session owner action) :
    ∃ h', (h.serve s now action).1 = some h' ∧ session ∈ h'.sessions := by
  cases action with
  | start started => exact ⟨_, rfl, TextSet.mem_insert.mpr (.inr hopen)⟩
  | attempt asking asked => exact ⟨h, rfl, hopen⟩
  | renew renewed => exact ⟨h, rfl, hopen⟩
  | close closed =>
      refine ⟨_, rfl, ?_⟩
      have hne : session ≠ closed := fun heq => hfrees ⟨hopen, heq.symm⟩
      rw [close]
      split
      · split <;> exact List.mem_filter.mpr ⟨hopen, decide_eq_true hne⟩
      · exact hopen
  | drop => exact absurd hopen hfrees
  | request asked => exact ⟨h, rfl, hopen⟩

/-- A handle keeps its settings, and its sessions are those it had and the one
it started. -/
theorem settings_of_serve {action : Action} {h' : Handle}
    (hserve : (h.serve s now action).1 = some h') : h'.access = h.access ∧ h'.lease = h.lease
      ∧ ∀ x ∈ h'.sessions, x ∈ h.sessions ∨ action.started? = some x := by
  cases action with
  | start started =>
      cases hserve
      refine ⟨rfl, rfl, fun x hx => ?_⟩
      rcases TextSet.mem_insert.mp hx with rfl | hx
      · exact .inr rfl
      · exact .inl hx
  | attempt asking asked =>
      cases hserve
      exact ⟨rfl, rfl, fun x hx => .inl hx⟩
  | renew renewed =>
      cases hserve
      exact ⟨rfl, rfl, fun x hx => .inl hx⟩
  | close closed =>
      cases hserve
      rw [close]
      split
      · split <;> exact ⟨rfl, rfl, fun x hx => .inl (List.mem_of_mem_filter hx)⟩
      · exact ⟨rfl, rfl, fun x hx => .inl hx⟩
  | drop => cases hserve
  | request asked =>
      cases hserve
      exact ⟨rfl, rfl, fun x hx => .inl hx⟩

/-- A lock after an action is of a session that had one before or is of the
handle; one of the handle is still open. -/
theorem locks_of_serve (hwrite : h.access = .readWrite) {action : Action} {l : Lock}
    (hl : l ∈ (h.serve s now action).2.locks) :
    (l.session ∈ h.sessions ∨ ∃ old ∈ s.locks, old.session = l.session)
      ∧ (l.session ∈ h.sessions →
        ∃ h', (h.serve s now action).1 = some h' ∧ l.session ∈ h'.sessions) := by
  cases action with
  | start started =>
      exact ⟨.inr ⟨l, hl, rfl⟩, fun hopen => ⟨_, rfl, TextSet.mem_insert.mpr (.inr hopen)⟩⟩
  | attempt asking asked =>
      refine ⟨?_, fun hopen => ⟨h, rfl, hopen⟩⟩
      rw [serve] at hl
      rcases h.attempt_cases hwrite s asking asked now with ⟨e, heq⟩ | ⟨hopen, s', hput, heq⟩
      · rw [heq] at hl
        exact .inr ⟨l, hl, rfl⟩
      · rw [heq] at hl
        rcases putLock_eq_ok hput with ⟨-, -, -, rfl⟩ | ⟨-, -, -, hlocks⟩
        · exact .inr ⟨l, hl, rfl⟩
        · rcases hlocks l hl with rfl | hl
          · exact .inl hopen
          · exact .inr ⟨l, hl, rfl⟩
  | renew renewed =>
      refine ⟨.inr ?_, fun hopen => ⟨h, rfl, hopen⟩⟩
      rw [serve] at hl
      rcases h.renew_cases hwrite s renewed now with ⟨e, heq⟩ | ⟨-, heq⟩
      · rw [heq] at hl
        exact ⟨l, hl, rfl⟩
      · rw [heq] at hl
        obtain ⟨old, hold, rfl⟩ := List.mem_map.mp hl
        refine ⟨old, hold, ?_⟩
        split <;> rfl
  | close closed =>
      simp only [serve] at hl ⊢
      rcases h.close_cases hwrite s closed with ⟨e, heq⟩ | ⟨-, heq⟩
      · rw [heq] at hl ⊢
        exact ⟨.inr ⟨l, hl, rfl⟩, fun hopen => ⟨h, rfl, hopen⟩⟩
      · rw [heq] at hl ⊢
        obtain ⟨hl, hne⟩ := List.mem_filter.mp hl
        exact ⟨.inr ⟨l, hl, rfl⟩, fun hopen => ⟨_, rfl, List.mem_filter.mpr ⟨hopen, hne⟩⟩⟩
  | drop =>
      rw [show (h.serve s now .drop).2.locks = _ from locks_drop hwrite s] at hl
      obtain ⟨hl, hother⟩ := List.mem_filter.mp hl
      exact ⟨.inr ⟨l, hl, rfl⟩, fun hopen => absurd hopen (of_decide_eq_true hother)⟩
  | request asked =>
      refine ⟨.inr ⟨l, ?_, rfl⟩, fun hopen => ⟨h, rfl, hopen⟩⟩
      rw [serve] at hl
      rcases locks_run s h.access asked with hlocks | ⟨deleted, -, hlocks⟩
      · exact hlocks ▸ hl
      · dsimp only at hl
        rw [hlocks] at hl
        exact List.mem_of_mem_filter hl

end Handle

/-! ## Shared stores -/

namespace Shared

variable {ι : Type}

/-- Handles that write with one lease, of which no two have a session in
common, and locks of sessions that are open.  The sessions that were ever
started are `used`. -/
structure Proper (lease : Int) (used : List String) (c : Shared ι) : Prop where
  settings : ∀ i h, c.handle? i = some h → h.access = .readWrite ∧ h.lease = lease
  started : ∀ i h, c.handle? i = some h → ∀ x ∈ h.sessions, x ∈ used
  apart : ∀ i j h k, c.handle? i = some h → c.handle? j = some k →
    ∀ x ∈ h.sessions, x ∈ k.sessions → i = j
  openLocks : ∀ l ∈ c.store.locks, ∃ i h, c.handle? i = some h ∧ l.session ∈ h.sessions

/-- A session that a client has open holds the lock on an owner, with a lease
that is not older than some time. -/
structure Holds (client : ι) (session : String) (owner : Owner) (since : Int) (c : Shared ι) :
    Prop where
  held : c.store.HeldSince owner.id session since
  isOpen : ∃ h, c.handle? client = some h ∧ session ∈ h.sessions

/-- Clients that have started no session are proper. -/
theorem proper_opened (lease : UInt64) {s : Store} (hlocks : s.locks = []) :
    Proper (leaseOf lease) [] (opened lease s : Shared ι) := by
  have hfresh : ∀ (i : ι) (h : Handle), (opened lease s).handle? i = some h →
      h = { access := .readWrite, lease := leaseOf lease } :=
    fun i h hi => (Option.some.inj hi).symm
  refine ⟨fun i h hi => ?_, fun i h hi x hx => ?_, fun i j h k hi hj x hx => ?_, fun l hl => ?_⟩
  · simp only [hfresh i h hi, and_self]
  · rw [hfresh i h hi] at hx
    cases hx
  · rw [hfresh i h hi] at hx
    cases hx
  · rw [opened, hlocks] at hl
    cases hl

variable {c : Shared ι} {lease : Int} {used : List String} {e : Event ι}
  {history : List (Event ι)} {client : ι} {session : String} {owner : Owner} {since : Int}

theorem startedIn_cons (e : Event ι) (history : List (Event ι)) :
    startedIn (e :: history) = e.action.started?.toList ++ startedIn history := by
  rw [startedIn, List.filterMap_cons]
  cases e.action.started? <;> rfl

/-- A session that an event starts is new, if no session is started twice. -/
theorem not_mem_of_startedIn
    (hnew : (used ++ e.action.started?.toList ++ startedIn history).Nodup) :
    ∀ x, e.action.started? = some x → x ∉ used := by
  intro x hx hmem
  have hdisjoint := List.disjoint_of_nodup_append (List.nodup_append.mp hnew).1
  exact hdisjoint hmem (Option.mem_toList.mpr hx)

variable [DecidableEq ι]

theorem act_of_dropped (h : c.handle? e.client = none) : c.act e = c := by
  rw [act, h]

theorem act_of_open {h : Handle} (hopen : c.handle? e.client = some h) :
    c.act e = ⟨(h.serve c.store e.now e.action).2, fun i =>
      if i = e.client then (h.serve c.store e.now e.action).1 else c.handle? i⟩ := by
  rw [act, hopen]

theorem handle?_act_self {h : Handle} (hopen : c.handle? e.client = some h) :
    (c.act e).handle? e.client = (h.serve c.store e.now e.action).1 := by
  rw [act_of_open hopen]
  exact if_pos rfl

theorem handle?_act_ne {i : ι} (hne : i ≠ e.client) : (c.act e).handle? i = c.handle? i := by
  cases hopen : c.handle? e.client with
  | none => rw [act_of_dropped hopen]
  | some h =>
      rw [act_of_open hopen]
      exact if_neg hne

/-- A handle after an event is one from before with the same settings, and its
sessions are those it had and one that the event started. -/
theorem handle_of_act {i : ι} {h' : Handle} (hi : (c.act e).handle? i = some h') :
    ∃ h, c.handle? i = some h ∧ h'.access = h.access ∧ h'.lease = h.lease
      ∧ ∀ x ∈ h'.sessions, x ∈ h.sessions ∨ i = e.client ∧ e.action.started? = some x := by
  by_cases heq : i = e.client
  · subst heq
    cases hopen : c.handle? e.client with
    | none =>
        rw [act_of_dropped hopen, hopen] at hi
        cases hi
    | some h =>
        rw [handle?_act_self hopen] at hi
        obtain ⟨haccess, hlease, hsessions⟩ := h.settings_of_serve hi
        exact ⟨h, rfl, haccess, hlease, fun x hx => (hsessions x hx).imp_right (⟨rfl, ·⟩)⟩
  · rw [handle?_act_ne heq] at hi
    exact ⟨h', hi, rfl, rfl, fun x hx => .inl hx⟩

/-- Events keep handles proper, if the sessions that they start are new. -/
theorem Proper.act (hc : c.Proper lease used)
    (hnew : ∀ x, e.action.started? = some x → x ∉ used) :
    (c.act e).Proper lease (used ++ e.action.started?.toList) where
  settings := by
    intro i h' hi
    obtain ⟨h, hopen, haccess, hlease, -⟩ := handle_of_act hi
    rw [haccess, hlease]
    exact hc.settings i h hopen
  started := by
    intro i h' hi x hx
    obtain ⟨h, hopen, -, -, hsessions⟩ := handle_of_act hi
    rcases hsessions x hx with hx | ⟨-, hx⟩
    · exact List.mem_append_left _ (hc.started i h hopen x hx)
    · exact List.mem_append_right _ (Option.mem_toList.mpr hx)
  apart := by
    intro i j h' k' hi hj x hx hx'
    obtain ⟨h, hopen, -, -, hsessions⟩ := handle_of_act hi
    obtain ⟨k, hopen', -, -, hsessions'⟩ := handle_of_act hj
    rcases hsessions x hx with hold | ⟨hclient, hstarted⟩
    · rcases hsessions' x hx' with hold' | ⟨-, hstarted⟩
      · exact hc.apart i j h k hopen hopen' x hold hold'
      · exact absurd (hc.started i h hopen x hold) (hnew x hstarted)
    · rcases hsessions' x hx' with hold' | ⟨hclient', -⟩
      · exact absurd (hc.started j k hopen' x hold') (hnew x hstarted)
      · exact hclient.trans hclient'.symm
  openLocks := by
    intro l hl
    cases hopen : c.handle? e.client with
    | none =>
        rw [act_of_dropped hopen] at hl ⊢
        exact hc.openLocks l hl
    | some h =>
        obtain ⟨hwrite, -⟩ := hc.settings _ h hopen
        rw [act_of_open hopen] at hl
        obtain ⟨hbefore, hstill⟩ := h.locks_of_serve hwrite hl
        by_cases hown : l.session ∈ h.sessions
        · obtain ⟨h', hserve, hmem⟩ := hstill hown
          exact ⟨e.client, h', (handle?_act_self hopen).trans hserve, hmem⟩
        · obtain ⟨old, hold, hsession⟩ := hbefore.resolve_left hown
          obtain ⟨i, k, hk, hmem⟩ := hc.openLocks old hold
          rw [hsession] at hmem
          refine ⟨i, k, ?_, hmem⟩
          rw [handle?_act_ne fun heq => hown ?_]
          · exact hk
          · rw [heq, hopen] at hk
            exact Option.some.inj hk ▸ hmem

/-- A lease that runs is not touched by an event that does not end it. -/
theorem Holds.act (hc : c.Proper lease used) (h : c.Holds client session owner since)
    (hends : ¬e.Ends client session owner) (hsince : since ≤ e.now)
    (hlease : e.now < since + lease) : (c.act e).Holds client session owner since := by
  obtain ⟨hheld, k, hk, hsession⟩ := h
  cases hopen : c.handle? e.client with
  | none =>
      rw [act_of_dropped hopen]
      exact ⟨hheld, k, hk, hsession⟩
  | some h =>
      obtain ⟨hwrite, hsame⟩ := hc.settings _ h hopen
      -- a session of the handle that acts is one of the client's
      have hown : session ∈ h.sessions → e.client = client :=
        fun hmem => hc.apart e.client client h k hopen hk session hmem hsession
      have hfrees : ¬h.Frees session owner e.action := by
        intro hfrees
        refine hends ?_
        rw [Event.Ends]
        cases haction : e.action with
        | close closed =>
            rw [haction] at hfrees
            exact ⟨hown hfrees.1, hfrees.2⟩
        | drop =>
            rw [haction] at hfrees
            exact hown hfrees
        | request asked =>
            rw [haction] at hfrees
            cases asked with
            | deleteOwner deleted => exact hfrees
            | createDataspace _ => cases hfrees
            | createOwner _ _ => cases hfrees
            | write _ _ => cases hfrees
            | deleteForOwners _ _ => cases hfrees
        | start _ => rw [haction] at hfrees; cases hfrees
        | attempt _ _ => rw [haction] at hfrees; cases hfrees
        | renew _ => rw [haction] at hfrees; cases hfrees
      refine ⟨?_, ?_⟩
      · rw [act_of_open hopen]
        exact Handle.heldSince_of_serve hwrite e.action hheld hsince (hsame ▸ hlease) hfrees
      · by_cases heq : client = e.client
        · subst heq
          obtain rfl := Option.some.inj (hopen.symm.trans hk)
          rw [handle?_act_self hopen]
          exact Handle.exists_open_of_serve hsession hfrees
        · exact ⟨k, (handle?_act_ne heq).trans hk, hsession⟩

/-- What grants a session a lock starts a lease. -/
theorem holds_of_grants (hc : c.Proper lease used) {h : Handle}
    (hopen : c.handle? e.client = some h)
    (hgrants : h.Grants c.store e.now session owner e.action) :
    (c.act e).Holds e.client session owner e.now := by
  obtain ⟨hwrite, -⟩ := hc.settings _ h hopen
  obtain ⟨hserve, hsession, hheld⟩ := Handle.heldSince_of_grants hwrite hgrants
  refine ⟨?_, h, ?_, hsession⟩
  · rw [act_of_open hopen]
    exact hheld
  · rw [handle?_act_self hopen, hserve]

/-! ## Runs -/

theorem Proper.run (hc : c.Proper lease used) (hnew : (used ++ startedIn history).Nodup) :
    (c.run history).Proper lease (used ++ startedIn history) := by
  induction history generalizing c used with
  | nil => rwa [startedIn, List.filterMap_nil, List.append_nil]
  | cons e rest ih =>
      rw [startedIn_cons, ← List.append_assoc] at hnew ⊢
      exact ih (hc.act (not_mem_of_startedIn hnew)) hnew

theorem Holds.run (hc : c.Proper lease used) (hnew : (used ++ startedIn history).Nodup)
    (h : c.Holds client session owner since)
    (hends : ∀ e ∈ history, ¬e.Ends client session owner)
    (htimes : ∀ e ∈ history, since ≤ e.now ∧ e.now < since + lease) :
    (c.run history).Holds client session owner since := by
  induction history generalizing c used with
  | nil => exact h
  | cons e rest ih =>
      rw [startedIn_cons, ← List.append_assoc] at hnew
      obtain ⟨hsince, hlease⟩ := htimes e List.mem_cons_self
      exact ih (hc.act (not_mem_of_startedIn hnew)) hnew
        (h.act hc (hends e List.mem_cons_self) hsince hlease)
        (fun f hf => hends f (List.mem_cons_of_mem e hf))
        (fun f hf => htimes f (List.mem_cons_of_mem e hf))

theorem run_append (c : Shared ι) (history later : List (Event ι)) :
    c.run (history ++ later) = (c.run history).run later :=
  List.foldl_append

theorem run_cons (c : Shared ι) (e : Event ι) (history : List (Event ι)) :
    c.run (e :: history) = (c.act e).run history :=
  rfl

/-- A lease that was started and not ended is one that still runs. -/
theorem holds_of_leased (hc : c.Proper lease used) (hnew : (used ++ startedIn history).Nodup)
    (hleased : c.Leased history client session owner since)
    (htimes : history.Pairwise fun e f => e.now ≤ f.now)
    (hrecent : ∀ e ∈ history, e.now < since + lease) :
    (c.run history).Holds client session owner since := by
  obtain ⟨before, e, later, rfl, rfl, rfl, ⟨h, hopen, hgrants⟩, hends⟩ := hleased
  rw [startedIn, List.filterMap_append, ← startedIn, ← startedIn, ← List.append_assoc] at hnew
  have hbefore := hc.run (List.nodup_append.mp hnew).1
  have hgrant := holds_of_grants hbefore hopen hgrants
  rw [startedIn_cons, ← List.append_assoc] at hnew
  rw [run_append, run_cons]
  refine Holds.run (hbefore.act (not_mem_of_startedIn hnew)) hnew hgrant hends fun f hf => ?_
  have hfrom := List.rel_of_pairwise_cons (List.pairwise_append.mp htimes).2.1 hf
  exact ⟨hfrom, hrecent f (List.mem_append_right before (List.mem_cons_of_mem e hf))⟩

end Shared

/-- Clients share a store without locks, all with one lease, and no session is
started twice.  From the time that a session was given the lock on an owner,
or renewed it, the session holds the lock until the lease runs out, and no
attempt of another session succeeds, unless the session was closed, its handle
dropped, or the owner deleted.  At any time, locks are of sessions that are
open. -/
theorem lease_excludes {ι : Type} [DecidableEq ι] {s : Store} {lease : UInt64}
    {history : List (Event ι)} (hlease : lease.toNat < 2 ^ 63) (hlocks : s.locks = [])
    (htimes : history.Pairwise fun e f => e.now ≤ f.now)
    (hnew : (Shared.startedIn history).Nodup) :
    let after := (Shared.opened lease s).run history
    (∀ client session owner since now,
      (Shared.opened lease s).Leased history client session owner since →
      (∀ e ∈ history, e.now ≤ now) → now < since + lease.toNat →
      after.store.holder owner = some session
        ∧ ∀ other h asking asked, after.handle? other = some h → asking ≠ session →
          asked.id = owner.id → (h.attempt after.store asking asked now).2 ≠ .ok true)
    ∧ ∀ l ∈ after.store.locks, ∃ client h, after.handle? client = some h
      ∧ l.session ∈ h.sessions := by
  intro after
  have hopened : (Shared.opened lease s : Shared ι).Proper (leaseOf lease) [] :=
    Shared.proper_opened lease hlocks
  have hproper : after.Proper (leaseOf lease) (Shared.startedIn history) := hopened.run hnew
  refine ⟨fun client session owner since now hleased hpast hnow => ?_, hproper.openLocks⟩
  rw [← leaseOf_eq hlease] at hnow
  have hholds := Shared.holds_of_leased hopened hnew hleased htimes
    fun e he => lt_of_le_of_lt (hpast e he) hnow
  refine ⟨hholds.held.holder_eq, fun other h asking asked hopen hne howner => ?_⟩
  obtain ⟨hwrite, hsame⟩ := hproper.settings other h hopen
  have hsince : since ≤ now := by
    obtain ⟨before, e, later, rfl, -, rfl, -⟩ := hleased
    exact hpast e (List.mem_append_right before List.mem_cons_self)
  exact h.attempt_ne_of_heldSince hwrite hholds.held hsince (hsame ▸ hnow) hne howner

/-- Two clients with a lease of 100: one is given a lock at 10 and renews it at
60.  The other asks for it meanwhile and closes a session that is not its own;
it is refused until 159 and takes the lock over at 160. -/
theorem lease_excludes_of_renewal :
    let owner : Owner := ⟨1, 1, "d", "o"⟩
    let s := (Request.createOwner ⟨1, "d"⟩ "o").run .readWrite
      ((Request.createDataspace "d").run .readWrite Store.empty)
    let history : List (Event Bool) := [⟨false, 0, .start "a"⟩, ⟨true, 0, .start "b"⟩,
      ⟨false, 10, .attempt "a" owner⟩, ⟨true, 20, .attempt "b" owner⟩, ⟨false, 60, .renew "a"⟩,
      ⟨true, 70, .close "a"⟩, ⟨true, 150, .attempt "b" owner⟩]
    let after := (Shared.opened 100 s).run history
    let h : Handle := { access := .readWrite, lease := 100, sessions := ["b"] }
    after.handle? true = some h ∧ after.store.holder owner = some "a"
      ∧ (h.attempt after.store "b" owner 159).2 ≠ .ok true
      ∧ (h.attempt after.store "b" owner 160).2 = .ok true
      ∧ ∀ l ∈ after.store.locks, ∃ client h, after.handle? client = some h
        ∧ l.session ∈ h.sessions := by
  intro owner s history after h
  have hopen : after.handle? true = some h := by decide +kernel
  have hleased : (Shared.opened 100 s).Leased history false "a" owner 60 := by
    refine ⟨history.take 4, ⟨false, 60, .renew "a"⟩, history.drop 5, rfl, rfl, rfl,
      ⟨{ access := .readWrite, lease := 100, sessions := ["a"] }, ?_, rfl, ?_, ?_⟩, ?_⟩
    · decide +kernel
    · decide +kernel
    · decide +kernel
    · decide +kernel
  obtain ⟨hexcludes, hlocks⟩ := @lease_excludes Bool _ s 100 history (by decide)
    (by decide +kernel) (by decide +kernel) (by decide +kernel)
  obtain ⟨hholder, hothers⟩ :=
    hexcludes false "a" owner 60 159 hleased (by decide +kernel) (by decide)
  refine ⟨hopen, hholder, hothers true h "b" owner hopen (by decide) rfl, ?_, hlocks⟩
  decide +kernel

end DataTree
