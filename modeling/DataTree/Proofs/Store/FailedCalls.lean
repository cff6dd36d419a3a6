import DataTree.Proofs.Store.Leases
import DataTree.Proofs.Store.Refusal

/-!
# Session calls that fail

A client locks owners, renews its locks and closes its sessions through a handle that may
write or only read.  A call that fails leaves the locks as they are.  It also leaves the
handle as it is, but for one: a handle that may only read forgets a session before it
finds that it cannot release the locks of that.  The session is then gone, and whatever
is asked for it again, closing it included, finds no session.

## Main definitions

* `Handle.fault?`, `Shared.fault?` — the error of a call.
* `Handle.closeWith` — closing a session, by what the engine makes of it.
* `Shared.Loses` — a call that fails forgets a session.
* `Shared.successes` — the events of a history without the calls that fail.
* `Shared.Matches` — the same store with the same handles, but for sessions of those that
  may only read.

## Main results

* `Handle.lock_of_error` — no attempt to get a lock that fails leaves anything behind.
* `Handle.closeWith_fails` — what closing a session leaves behind if it fails.
* `Shared.act_of_fault` — what a call that fails leaves behind.
* `Shared.matches_run` — calls that fail might as well not have been made.
* `failed_calls` — these together, and what becomes of a session that is lost.
-/

namespace DataTree

namespace Handle

variable {h : Handle} {s : Store} {session : String} {owner : Owner} {now : Int} {timeout : Nat}

/-! ## Single calls -/

/-- The error of a call about a session, if there is one. -/
def fault? (h : Handle) (s : Store) (now : Int) : Action → Option StoreError
  | .attempt session owner => Outcome.refusal? (h.attempt s session owner now).2
  | .renew session => Outcome.refusal? (h.renew s session now).2
  | .close session => Outcome.refusal? (h.close s session).2.2
  | .start _ | .drop | .request _ => none

/-- The handle without one of its sessions. -/
def without (h : Handle) (session : String) : Handle :=
  { h with sessions := h.sessions.filter fun x => x ≠ session }

/-- An attempt that gets no lock changes none. -/
theorem attempt_of_ne {s' : Store} {answer : Outcome Bool}
    (hcall : h.attempt s session owner now = (s', answer)) (hne : answer ≠ .ok true) : s' = s := by
  rw [attempt] at hcall
  split at hcall
  · split at hcall
    · cases hcall
      rfl
    · cases hput : s.putLock ⟨owner.id, session, now⟩ h.lease with
      | error fault =>
          rw [hput] at hcall
          cases hcall
          rfl
      | ok t =>
          rw [hput] at hcall
          cases hcall
          rcases putLock_eq_ok hput with ⟨held, -, -, rfl⟩ | ⟨-, hwanted, -, -⟩
          · rfl
          · have hholder : s'.holder owner = some session := by
              rw [Store.holder, hwanted]
              rfl
            exact absurd (by rw [hholder, decide_eq_true rfl]) hne
  · cases hcall
    rfl

/-- Waiting for a lock in vain changes none. -/
theorem lock_of_error {e : StoreError}
    (he : (h.lock s session owner now timeout).2.2 = .error e) :
    (h.lock s session owner now timeout).1 = s := by
  rw [lock] at he ⊢
  rcases hfirst : h.attempt s session owner now with ⟨s₁, first⟩
  rw [hfirst] at he
  cases first with
  | error e' => exact attempt_of_ne hfirst (by simp)
  | ok given =>
      cases given with
      | true => cases he
      | false =>
          obtain rfl : s₁ = s := attempt_of_ne hfirst (by simp)
          simp only at he ⊢
          split
          · rfl
          · rename_i hwait
            rw [if_neg hwait] at he
            rcases hlast : h.attempt s₁ session owner (now + timeout) with ⟨s₂, last⟩
            rw [hlast] at he
            cases last with
            | error e' => exact attempt_of_ne hlast (by simp)
            | ok given' =>
                cases given' with
                | true => cases he
                | false => exact attempt_of_ne hlast (by simp)

theorem renew_of_error {e : StoreError} (he : (h.renew s session now).2 = .error e) :
    (h.renew s session now).1 = s := by
  rw [renew] at he ⊢
  split
  · rename_i hopen
    rw [if_pos hopen] at he
    split
    · rfl
    · rename_i hwrite
      rw [if_neg hwrite] at he
      cases he
  · rfl

/-- Closing a session, by what the engine makes of the release of its locks. -/
def closeWith (h : Handle) (s : Store) (session : String) (released : Except EngineFault Store) :
    Handle × Store × Outcome Unit :=
  if h.sessions.contains session then
    match released with
    | .error fault => (h.without session, s, .error (.engine fault))
    | .ok s' => (h.without session, s', .ok ())
  else (h, s, .error (.sessionNotFound session))

/-- A handle that may only read has its release refused. -/
theorem close_eq (h : Handle) (s : Store) (session : String) :
    h.close s session = h.closeWith s session
      (if h.access = .readOnly then .error .readOnly else .ok (s.releaseLocks session)) := by
  unfold close closeWith
  split
  · split <;> rfl
  · rfl

/-- Closing a session fails for a session that is not open and leaves everything as it
is, or since its locks cannot be released, and forgets the session. -/
theorem closeWith_of_error {released : Except EngineFault Store} {e : StoreError}
    (he : (h.closeWith s session released).2.2 = .error e) :
    session ∉ h.sessions
        ∧ h.closeWith s session released = (h, s, .error (.sessionNotFound session))
      ∨ session ∈ h.sessions ∧ ∃ fault, released = .error fault
        ∧ h.closeWith s session released = (h.without session, s, .error (.engine fault)) := by
  unfold closeWith at he ⊢
  split
  · rename_i hopen
    rw [if_pos hopen] at he
    cases released with
    | error fault => exact .inr ⟨List.contains_iff_mem.mp hopen, fault, rfl, rfl⟩
    | ok s' => cases he
  · rename_i hclosed
    exact .inl ⟨fun hmem => hclosed (List.contains_iff_mem.mpr hmem), rfl⟩

theorem close_of_error {e : StoreError} (he : (h.close s session).2.2 = .error e) :
    session ∉ h.sessions ∧ h.close s session = (h, s, .error (.sessionNotFound session))
      ∨ session ∈ h.sessions ∧ h.access = .readOnly
        ∧ h.close s session = (h.without session, s, .error (.engine .readOnly)) := by
  rw [close_eq] at he ⊢
  rcases closeWith_of_error he with hunknown | ⟨hopen, fault, hfault, hcall⟩
  · exact .inl hunknown
  · split at hfault
    · rename_i hread
      obtain rfl := Except.error.inj hfault
      exact .inr ⟨hopen, hread, hcall⟩
    · cases hfault

theorem without_eq_self_iff : h.without session = h ↔ session ∉ h.sessions := by
  constructor
  · intro hsame hmem
    rw [← hsame] at hmem
    simp [without] at hmem
  · intro hmem
    have hall : h.sessions.filter (fun x => x ≠ session) = h.sessions := by
      refine List.filter_eq_self.mpr fun x hx => decide_eq_true ?_
      rintro rfl
      exact hmem hx
    rw [without, hall]

/-- The locks of a session that was forgotten are not released with the handle either. -/
theorem mem_drop_without {l : Lock} (hl : l ∈ s.locks) (hsession : l.session = session) :
    l ∈ ((h.without session).drop s).locks := by
  rw [drop]
  split
  · exact hl
  · rw [locks_releaseLocks]
    refine List.mem_filter.mpr ⟨hl, decide_eq_true ?_⟩
    simp [without, hsession]

/-- Where the locks of an open session cannot be released, whatever the fault, the store
stays as it is and the handle forgets the session. -/
theorem closeWith_fails {released : Except EngineFault Store} {e : StoreError}
    (he : (h.closeWith s session released).2.2 = .error e) :
    (h.closeWith s session released).2.1 = s
      ∧ ((h.closeWith s session released).1 = h ↔ session ∉ h.sessions)
      ∧ (session ∈ h.sessions → ∀ l ∈ s.locks, l.session = session →
        l ∈ ((h.closeWith s session released).1.drop s).locks) := by
  rcases closeWith_of_error he with ⟨hunknown, hcall⟩ | ⟨hopen, fault, -, hcall⟩
  · rw [hcall]
    exact ⟨rfl, by simp [hunknown], fun hopen => absurd hopen hunknown⟩
  · rw [hcall]
    exact ⟨rfl, without_eq_self_iff, fun _ l hl hsession => mem_drop_without hl hsession⟩

/-- Whatever is asked for a session that is not open finds none. -/
theorem calls_of_unknown (hunknown : session ∉ h.sessions) (s : Store) :
    h.close s session = (h, s, .error (.sessionNotFound session))
      ∧ (∀ now, h.renew s session now = (s, .error (.sessionNotFound session)))
      ∧ ∀ owner now timeout,
        h.lock s session owner now timeout = (s, now, .error (.sessionNotFound session)) := by
  have hclosed : ¬h.sessions.contains session = true :=
    fun hmem => hunknown (List.contains_iff_mem.mp hmem)
  refine ⟨?_, fun now => ?_, fun owner now timeout => ?_⟩
  · rw [close, if_neg hclosed]
  · rw [renew, if_neg hclosed]
  · have hattempt : h.attempt s session owner now = (s, .error (.sessionNotFound session)) := by
      rw [attempt, if_neg hclosed]
    rw [lock, hattempt]

/-- A call that fails leaves the store as it is, and the handle too, unless that forgets a
session that it may not close. -/
theorem serve_of_fault {action : Action} {e : StoreError}
    (hfault : h.fault? s now action = some e) :
    (h.serve s now action).2 = s
      ∧ ((∀ session, action = .close session → session ∉ h.sessions)
          ∧ (h.serve s now action).1 = some h
        ∨ ∃ session, action = .close session ∧ session ∈ h.sessions ∧ h.access = .readOnly
          ∧ e = .engine .readOnly ∧ (h.serve s now action).1 = some (h.without session)) := by
  cases action with
  | start started => cases hfault
  | attempt asking asked =>
      have hne : (h.attempt s asking asked now).2 ≠ .ok true := by
        rw [refusal?_eq_some_iff.mp hfault]
        simp
      exact ⟨attempt_of_ne rfl hne, .inl ⟨fun _ h => (by cases h), rfl⟩⟩
  | renew renewed =>
      exact ⟨renew_of_error (refusal?_eq_some_iff.mp hfault), .inl ⟨fun _ h => (by cases h), rfl⟩⟩
  | close closed =>
      have herror := refusal?_eq_some_iff.mp hfault
      rcases close_of_error herror with ⟨hunknown, hcall⟩ | ⟨hopen, hread, hcall⟩
      · rw [serve, hcall]
        refine ⟨rfl, .inl ⟨?_, rfl⟩⟩
        rintro session ⟨⟩
        exact hunknown
      · rw [hcall] at herror
        rw [serve, hcall]
        exact ⟨rfl, .inr ⟨closed, rfl, hopen, hread, (Except.error.inj herror).symm, rfl⟩⟩
  | drop => cases hfault
  | request asked => cases hfault

/-! ## Handles with more sessions -/

/-- A handle with the same settings as another and the same sessions, or more if it may
only read. -/
structure Keeps (h h' : Handle) : Prop where
  access : h'.access = h.access
  lease : h'.lease = h.lease
  sessions : ∀ x ∈ h.sessions, x ∈ h'.sessions
  writing : h.access = .readWrite → h' = h

theorem Keeps.refl (h : Handle) : h.Keeps h := ⟨rfl, rfl, fun _ hx => hx, fun _ => rfl⟩

/-- Through a handle that may only read every call about a session fails. -/
theorem fault?_of_readOnly (hread : h.access = .readOnly) (s : Store) (session : String) :
    (∀ owner now, h.fault? s now (.attempt session owner) ≠ none)
      ∧ (∀ now, h.fault? s now (.renew session) ≠ none)
      ∧ ∀ now, h.fault? s now (.close session) ≠ none := by
  refine ⟨fun owner now => ?_, fun now => ?_, fun now => ?_⟩
  · rw [fault?, attempt, if_pos hread]
    split <;> simp [Outcome.refusal?]
  · rw [fault?, renew, if_pos hread]
    split <;> simp [Outcome.refusal?]
  · rw [fault?, close, if_pos hread]
    split <;> simp [Outcome.refusal?]

/-- What does not fail does the same through a handle with more sessions. -/
theorem Keeps.serve {h' : Handle} (hkeeps : h.Keeps h') {action : Action}
    (hfault : h.fault? s now action = none) :
    (h'.serve s now action).2 = (h.serve s now action).2
      ∧ Option.Rel Keeps (h.serve s now action).1 (h'.serve s now action).1 := by
  cases haccess : h.access with
  | readWrite =>
      rw [hkeeps.writing haccess]
      refine ⟨rfl, ?_⟩
      cases (h.serve s now action).1 with
      | none => exact .none
      | some k => exact .some (.refl k)
  | readOnly =>
      have hfails := fault?_of_readOnly haccess s
      cases action with
      | start started =>
          refine ⟨rfl, .some ⟨hkeeps.access, hkeeps.lease, fun x hx => ?_, fun hwrite => ?_⟩⟩
          · rcases TextSet.mem_insert.mp hx with rfl | hx
            · exact TextSet.mem_insert.mpr (.inl rfl)
            · exact TextSet.mem_insert.mpr (.inr (hkeeps.sessions x hx))
          · cases haccess.symm.trans hwrite
      | attempt asking asked => exact absurd hfault ((hfails asking).1 asked now)
      | renew renewed => exact absurd hfault ((hfails renewed).2.1 now)
      | close closed => exact absurd hfault ((hfails closed).2.2 now)
      | drop =>
          refine ⟨?_, .none⟩
          show h'.drop s = h.drop s
          rw [drop, drop, if_pos haccess, if_pos (hkeeps.access.trans haccess)]
      | request asked =>
          refine ⟨?_, .some hkeeps⟩
          show asked.run h'.access s = asked.run h.access s
          rw [hkeeps.access]

end Handle

namespace Shared

variable {ι : Type}

/-! ## Events -/

/-- The error of an event, if it is a call about a session that fails. -/
def fault? (c : Shared ι) (e : Event ι) : Option StoreError :=
  (c.handle? e.client).bind fun h => h.fault? c.store e.now e.action

/-- Whether an event closes a session that its client has open through a handle that may
only read. -/
def Loses (c : Shared ι) (e : Event ι) (session : String) : Prop :=
  e.action = .close session
    ∧ ∃ h, c.handle? e.client = some h ∧ h.access = .readOnly ∧ session ∈ h.sessions

/-- The events of a history without the calls that fail. -/
def successes [DecidableEq ι] (c : Shared ι) : List (Event ι) → List (Event ι)
  | [] => []
  | e :: rest =>
    if (c.fault? e).isSome then (c.act e).successes rest else e :: (c.act e).successes rest

/-- The same store with the same handles, of which those that may only read may have more
sessions. -/
structure Matches (c c' : Shared ι) : Prop where
  store : c'.store = c.store
  handles : ∀ i, Option.Rel Handle.Keeps (c.handle? i) (c'.handle? i)

theorem Matches.refl (c : Shared ι) : c.Matches c := by
  refine ⟨rfl, fun i => ?_⟩
  cases c.handle? i with
  | none => exact .none
  | some h => exact .some (.refl h)

variable {c c' : Shared ι} {e : Event ι} {err : StoreError}

/-- A handle on one side has its match on the other. -/
theorem Matches.exists_handle (hc : c.Matches c') {i : ι} {h : Handle}
    (hopen : c.handle? i = some h) : ∃ h', c'.handle? i = some h' ∧ h.Keeps h' := by
  have hmatch := hc.handles i
  rw [hopen] at hmatch
  cases hopen' : c'.handle? i with
  | none =>
      rw [hopen'] at hmatch
      cases hmatch
  | some h' =>
      rw [hopen'] at hmatch
      cases hmatch with
      | some hkeeps => exact ⟨h', rfl, hkeeps⟩

/-- A client that has dropped its handle on one side has so on the other. -/
theorem Matches.handle_eq_none (hc : c.Matches c') {i : ι} (hdropped : c.handle? i = none) :
    c'.handle? i = none := by
  have hmatch := hc.handles i
  rw [hdropped] at hmatch
  cases hopen' : c'.handle? i with
  | none => rfl
  | some h' =>
      rw [hopen'] at hmatch
      cases hmatch

theorem fault?_eq_some (hfault : c.fault? e = some err) :
    ∃ h, c.handle? e.client = some h ∧ h.fault? c.store e.now e.action = some err :=
  Option.bind_eq_some_iff.mp hfault

variable [DecidableEq ι]

/-- A call that fails and forgets no session changes nothing. -/
theorem act_of_fault (hfault : c.fault? e = some err) (hkept : ∀ session, ¬c.Loses e session) :
    c.act e = c := by
  obtain ⟨h, hopen, hfails⟩ := fault?_eq_some hfault
  rw [act_of_open hopen]
  obtain ⟨hstore, ⟨-, hhandle⟩ | ⟨session, hclose, hmem, hread, -⟩⟩ := h.serve_of_fault hfails
  · have hhandles : (fun i => if i = e.client then (h.serve c.store e.now e.action).1
        else c.handle? i) = c.handle? := by
      funext i
      split
      · rename_i hi
        rw [hhandle, hi, hopen]
      · rfl
    rw [hstore, hhandles]
  · exact absurd ⟨hclose, h, hopen, hread, hmem⟩ (hkept session)

/-- A session that is lost is one that could not be closed, and nothing else changes. -/
theorem act_of_loses {session : String} (hfault : c.fault? e = some err)
    (hloses : c.Loses e session) : err = .engine .readOnly ∧ (c.act e).store = c.store
      ∧ ∃ h, c.handle? e.client = some h ∧ session ∈ h.sessions
        ∧ ∀ i, (c.act e).handle? i
          = if i = e.client then some (h.without session) else c.handle? i := by
  obtain ⟨hclose, h, hopen, hread, hmem⟩ := hloses
  obtain ⟨h', hopen', hfails⟩ := fault?_eq_some hfault
  obtain rfl := Option.some.inj (hopen.symm.trans hopen')
  obtain ⟨hstore, ⟨hnone, -⟩ | ⟨closed, hclosed, -, -, herr, hhandle⟩⟩ := h.serve_of_fault hfails
  · exact absurd hmem (hnone session hclose)
  · obtain rfl : closed = session := Action.close.inj (hclosed.symm.trans hclose)
    refine ⟨herr, ?_, h, hopen, hmem, fun i => ?_⟩
    · rw [act_of_open hopen]
      exact hstore
    · rw [act_of_open hopen, ← hhandle]

/-- So a call that fails changes nothing exactly if it forgets no session. -/
theorem act_eq_iff (hfault : c.fault? e = some err) :
    c.act e = c ↔ ∀ session, ¬c.Loses e session := by
  refine ⟨fun hsame session hloses => ?_, act_of_fault hfault⟩
  obtain ⟨-, -, h, hopen, hmem, hhandles⟩ := act_of_loses hfault hloses
  have hhandle := hhandles e.client
  rw [hsame, hopen, if_pos rfl] at hhandle
  exact Handle.without_eq_self_iff.mp (Option.some.inj hhandle).symm hmem

/-! ## Histories -/

theorem Matches.of_fault (hc : c.Matches c') (hfault : c.fault? e = some err) :
    (c.act e).Matches c' := by
  by_cases hloses : ∃ session, c.Loses e session
  · obtain ⟨session, hloses⟩ := hloses
    obtain ⟨-, hstore, h, hopen, -, hhandles⟩ := act_of_loses hfault hloses
    obtain ⟨-, k, hk, hread, -⟩ := hloses
    obtain rfl := Option.some.inj (hopen.symm.trans hk)
    obtain ⟨h', hopen', hkeeps⟩ := hc.exists_handle hopen
    refine ⟨hc.store.trans hstore.symm, fun i => ?_⟩
    rw [hhandles i]
    split
    · rename_i hi
      rw [hi, hopen']
      refine .some ⟨hkeeps.access, hkeeps.lease, fun x hx => ?_, fun hwrite => ?_⟩
      · exact hkeeps.sessions x (List.mem_of_mem_filter hx)
      · cases hread.symm.trans hwrite
    · exact hc.handles i
  · rwa [act_of_fault hfault (not_exists.mp hloses)]

theorem Matches.act (hc : c.Matches c') (hfault : c.fault? e = none) :
    (c.act e).Matches (c'.act e) := by
  cases hopen : c.handle? e.client with
  | none =>
      rw [act_of_dropped hopen, act_of_dropped (hc.handle_eq_none hopen)]
      exact hc
  | some h =>
      obtain ⟨h', hopen', hkeeps⟩ := hc.exists_handle hopen
      have hsucceeds : h.fault? c.store e.now e.action = none := by
        rwa [fault?, hopen] at hfault
      obtain ⟨hstore, hhandle⟩ := hkeeps.serve hsucceeds
      rw [act_of_open hopen, act_of_open hopen', hc.store]
      refine ⟨hstore, fun i => ?_⟩
      dsimp only
      split
      · exact hhandle
      · exact hc.handles i

/-- Without the calls that fail a history leads to the same store, and to handles that
miss no session. -/
theorem matches_run (hc : c.Matches c') (history : List (Event ι)) :
    (c.run history).Matches (c'.run (c.successes history)) := by
  induction history generalizing c c' with
  | nil => exact hc
  | cons e rest ih =>
      rw [run_cons, successes]
      cases hfault : c.fault? e with
      | some err => exact ih (hc.of_fault hfault)
      | none => exact ih (hc.act hfault)

/-- A session that a client does not have open is not open later either, unless the
client starts it. -/
theorem unknown_of_run {client : ι} {session : String} {history : List (Event ι)}
    (hunknown : ∀ h, c.handle? client = some h → session ∉ h.sessions)
    (hstarted : ∀ e ∈ history, e.client = client → e.action.started? ≠ some session) :
    ∀ h, (c.run history).handle? client = some h → session ∉ h.sessions := by
  induction history generalizing c with
  | nil => exact hunknown
  | cons e rest ih =>
      refine ih (fun h' hopen' hmem => ?_) fun f hf => hstarted f (List.mem_cons_of_mem e hf)
      obtain ⟨h, hopen, -, -, hsessions⟩ := handle_of_act hopen'
      rcases hsessions session hmem with hmem | ⟨hclient, hstart⟩
      · exact hunknown h hopen hmem
      · exact hstarted e List.mem_cons_self hclient.symm hstart

end Shared

/-- A call about a session that fails leaves the store and its locks as they are, and all
handles, unless it closes a session that is open.  If the engine does not release the locks
of that, for whatever reason, the handle forgets the session all the same, and does not
release them when it is dropped.  Of handles that are not disturbed those that may only
read meet such a refusal, and no others: until its client starts the session again, it can
neither be closed, nor renewed, nor given a lock, and the error is that there is none.
Apart from such sessions a history of clients comes to the same without the calls in it
that fail. -/
theorem failed_calls {ι : Type} [DecidableEq ι] (c : Shared ι) :
    (∀ (h : Handle) s session owner now timeout e,
        (h.lock s session owner now timeout).2.2 = .error e →
          (h.lock s session owner now timeout).1 = s)
      ∧ (∀ (h : Handle) s session released e,
        (h.closeWith s session released).2.2 = .error e →
          (h.closeWith s session released).2.1 = s
          ∧ ((h.closeWith s session released).1 = h ↔ session ∉ h.sessions)
          ∧ (session ∈ h.sessions → ∀ l ∈ s.locks, l.session = session →
            l ∈ ((h.closeWith s session released).1.drop s).locks))
      ∧ (∀ e err, c.fault? e = some err → (c.act e).store = c.store
        ∧ (c.act e = c ↔ ∀ session, ¬c.Loses e session)
        ∧ ∀ session, c.Loses e session → err = .engine .readOnly
          ∧ (∃ h, c.handle? e.client = some h ∧ ∀ i, (c.act e).handle? i
            = if i = e.client then some (h.without session) else c.handle? i)
          ∧ ∀ later, (∀ f ∈ later, f.client = e.client → f.action.started? ≠ some session) →
            ∀ h, ((c.act e).run later).handle? e.client = some h → ∀ s,
              h.close s session = (h, s, .error (.sessionNotFound session))
              ∧ (∀ now, h.renew s session now = (s, .error (.sessionNotFound session)))
              ∧ ∀ owner now timeout,
                h.lock s session owner now timeout = (s, now, .error (.sessionNotFound session)))
      ∧ ∀ history, (c.run history).Matches (c.run (c.successes history)) := by
  refine ⟨fun h s session owner now timeout e he => Handle.lock_of_error he,
    fun h s session released e he => Handle.closeWith_fails he,
    fun e err hfault => ⟨?_, Shared.act_eq_iff hfault, fun session hloses => ?_⟩,
    Shared.matches_run (.refl c)⟩
  · by_cases hloses : ∃ session, c.Loses e session
    · obtain ⟨session, hloses⟩ := hloses
      exact (Shared.act_of_loses hfault hloses).2.1
    · rw [Shared.act_of_fault hfault (not_exists.mp hloses)]
  · obtain ⟨herr, -, h, hopen, -, hhandles⟩ := Shared.act_of_loses hfault hloses
    refine ⟨herr, ⟨h, hopen, hhandles⟩, fun later hlater h' hopen' s => ?_⟩
    refine h'.calls_of_unknown ?_ s
    refine Shared.unknown_of_run (fun k hk hmem => ?_) hlater h' hopen'
    rw [hhandles e.client, if_pos rfl] at hk
    rw [← Option.some.inj hk] at hmem
    simp [Handle.without] at hmem

/-- A client that may only read loses its session, beside one that holds a lock and waits
in vain for that on an owner that is gone. -/
theorem failed_calls_of_reader :
    let s : Store := { owners := [⟨1, 1, "o"⟩], lastOwner := 1, locks := [⟨1, "w", 0⟩] }
    let writer : Handle := { access := .readWrite, lease := 100, sessions := ["w"] }
    let reader : Handle := { access := .readOnly, lease := 100, sessions := ["r"] }
    let c : Shared Bool := ⟨s, fun client => some (if client then reader else writer)⟩
    let close : Event Bool := ⟨true, 10, .close "r"⟩
    let renew : Event Bool := ⟨false, 20, .renew "w"⟩
    (writer.lock s "w" ⟨9, 1, "d", "gone"⟩ 0 50).1 = s
      ∧ (c.act close).store = s ∧ c.act close ≠ c
      ∧ (∃ h, ((c.act close).run [renew]).handle? true = some h
        ∧ h.close s "r" = (h, s, .error (.sessionNotFound "r")))
      ∧ (writer.closeWith s "w" (.error .readOnly)).2.1 = s
      ∧ (c.run [close, renew, close]).Matches (c.run [renew]) := by
  intro s writer reader c close renew
  obtain ⟨hlock, hclose, hfails, hrun⟩ := failed_calls c
  have hfault : c.fault? close = some (.engine .readOnly) := rfl
  have hloses : c.Loses close "r" := ⟨rfl, reader, rfl, rfl, List.mem_singleton.mpr rfl⟩
  obtain ⟨hstore, hsame, hlost⟩ := hfails close _ hfault
  obtain ⟨-, -, hlater⟩ := hlost "r" hloses
  have hopen : ((c.act close).run [renew]).handle? true = some (reader.without "r") := rfl
  have hunknown := hlater [renew] (fun f hf => by simp_all [renew, close]) _ hopen s
  exact ⟨hlock writer s "w" ⟨9, 1, "d", "gone"⟩ 0 50 (.engine .foreignKey) rfl, hstore,
    fun h => hsame.mp h "r" hloses, ⟨_, hopen, hunknown.1⟩,
    (hclose writer s "w" (.error .readOnly) (.engine .readOnly) rfl).1,
    hrun [close, renew, close]⟩

/-- A session that could not be closed cannot be closed again: the second time there is
none. -/
theorem session_lost :
    let reader : Handle := { access := .readOnly, lease := 100, sessions := ["r"] }
    let closed := reader.close Store.empty "r"
    closed.2.2 = .error (.engine .readOnly) ∧ closed.1 ≠ reader
      ∧ (closed.1.close closed.2.1 "r").2.2 = .error (.sessionNotFound "r") := by
  intro reader closed
  refine ⟨rfl, ?_, rfl⟩
  decide +kernel

end DataTree
