import DataTree.Proofs.Store.Leases
import DataTree.Store.Files

/-!
# Lengths of leases

A lease is given in milliseconds as an unsigned number, and locks are aged with signed
ones.  Below half the range the two are the same, and a lease keeps its lock for exactly
its length.  From there on it is negative: no lock is young enough then, and whoever asks
takes it over at once.  Nothing stops such a lease on opening.

## Main definitions

* `Protects` — a length of leases keeps locks from other sessions up to an age.

## Main results

* `attempt_eq_ok_iff` — what an attempt is granted for.
* `Shared.acquiredAt_le_of_run` — no lock is from the future.
* `lease_lengths` — the lengths that protect up to an age, and what becomes of locks with
  the others.
-/

namespace DataTree

/-! ## Leases as signed numbers -/

/-- A lease from half the range on is negative. -/
theorem leaseOf_neg {lease : UInt64} (h : 2 ^ 63 ≤ lease.toNat) : leaseOf lease < 0 := by
  have hlt := lease.toNat_lt
  have hwrap : leaseOf lease = ((lease.toNat : Int) - UInt64.size).bmod UInt64.size :=
    (Int.sub_bmod_right _ _).symm
  rw [hwrap, Int.bmod_eq_of_le] <;> simp only [UInt64.size] <;> omega

/-! ## Attempts -/

section

variable {h : Handle} {s : Store} {asking session : String} {asked owner : Owner}
  {since now : Int} {timeout : Nat}

/-- Putting a lock on an owner that is there meets no fault. -/
theorem exists_putLock (wanted : Lock) (lease : Int) (howner : s.hasOwner wanted.owner = true) :
    ∃ s', s.putLock wanted lease = .ok s' := by
  rw [Store.putLock]
  split
  · split
    · exact ⟨_, rfl⟩
    · exact ⟨_, rfl⟩
  · rw [if_pos howner]
    exact ⟨_, rfl⟩

theorem yieldsTo_iff {held wanted : Lock} {lease : Int} : held.yieldsTo wanted lease = true
    ↔ held.session = wanted.session ∨ held.acquiredAt + lease ≤ wanted.acquiredAt := by
  rw [Lock.yieldsTo, Bool.or_eq_true, decide_eq_true_eq, decide_eq_true_eq]
  exact or_congr_right ⟨fun h => by omega, fun h => by omega⟩

/-- An open session is granted the lock on an owner that is there, unless another one
holds it with a lease that runs. -/
theorem attempt_eq_ok_iff (hwrite : h.access = .readWrite) (hopen : asking ∈ h.sessions)
    (howner : s.hasOwner asked.id = true) : (h.attempt s asking asked now).2 = .ok true
      ↔ ∀ l, s.lockOn? asked.id = some l → l.session = asking ∨ l.acquiredAt + h.lease ≤ now := by
  obtain ⟨s', hput⟩ := exists_putLock ⟨asked.id, asking, now⟩ h.lease howner
  have hattempt : h.attempt s asking asked now = (s', .ok (s'.holder asked = some asking)) := by
    rw [Handle.attempt, if_pos (List.contains_iff_mem.mpr hopen),
      if_neg (Handle.not_readOnly hwrite), hput]
  rw [hattempt]
  rcases putLock_eq_ok hput with ⟨held, hheld, hstays, rfl⟩ | ⟨hyields, hwanted, -, -⟩
  · have hkept : ¬(held.session = asking ∨ held.acquiredAt + h.lease ≤ now) := by
      intro hgone
      have hyields : held.yieldsTo ⟨asked.id, asking, now⟩ h.lease = true := yieldsTo_iff.mpr hgone
      rw [hstays] at hyields
      cases hyields
    constructor
    · intro hok
      have hholder : s'.holder asked = some asking := of_decide_eq_true (Except.ok.inj hok)
      rw [Store.holder, hheld] at hholder
      exact absurd (.inl (Option.some.inj hholder)) hkept
    · exact fun hall => absurd (hall held hheld) hkept
  · have hholder : s'.holder asked = some asking := by
      rw [Store.holder, hwanted]
      rfl
    simp only [hholder, decide_true, true_iff]
    exact fun l hl => yieldsTo_iff.mp (hyields l hl)

/-- While the lease runs, no other session gets the lock by waiting either. -/
theorem lock_ne_of_heldSince (hwrite : h.access = .readWrite)
    (hheld : s.HeldSince owner.id session since) (hsince : since ≤ now)
    (hlease : now + timeout < since + h.lease) (hne : asking ≠ session)
    (howner : asked.id = owner.id) : (h.lock s asking asked now timeout).2.2 ≠ .ok () := by
  have hkept : (h.attempt s asking asked now).1.HeldSince owner.id session since :=
    Handle.heldSince_of_serve hwrite (.attempt asking asked) hheld hsince (by omega) id
  have hfirst := h.attempt_ne_of_heldSince hwrite hheld hsince (by omega) hne howner
  have hlast : (h.attempt (h.attempt s asking asked now).1 asking asked (now + timeout)).2
      ≠ .ok true := h.attempt_ne_of_heldSince hwrite hkept (by omega) hlease hne howner
  rw [Handle.lock]
  split
  · exact fun hok => by cases hok
  · rename_i heq
    rw [heq] at hfirst
    exact absurd rfl hfirst
  · rename_i s' heq
    rw [heq] at hlast
    split
    · exact fun hok => by cases hok
    · simp only
      split
      · exact fun hok => by cases hok
      · rename_i heq'
        rw [heq'] at hlast
        exact absurd rfl hlast
      · exact fun hok => by cases hok

theorem lock_of_attempt (hok : (h.attempt s asking asked now).2 = .ok true) (timeout : Nat) :
    (h.lock s asking asked now timeout).2 = (now, .ok ()) := by
  rw [Handle.lock]
  split
  · rename_i heq
    rw [heq] at hok
    cases hok
  · rfl
  · rename_i heq
    rw [heq] at hok
    cases hok

end

/-! ## The times of locks -/

/-- A lock after an action is as old as one from before, or new. -/
theorem Handle.acquiredAt_of_serve {h : Handle} {s : Store} {now : Int} {action : Action}
    {l : Lock} (hwrite : h.access = .readWrite) (hl : l ∈ (h.serve s now action).2.locks) :
    (∃ old ∈ s.locks, old.acquiredAt = l.acquiredAt) ∨ l.acquiredAt = now := by
  cases action with
  | start started => exact .inl ⟨l, hl, rfl⟩
  | attempt asking asked =>
      rw [serve] at hl
      rcases h.attempt_cases hwrite s asking asked now with ⟨e, heq⟩ | ⟨-, s', hput, heq⟩
      · rw [heq] at hl
        exact .inl ⟨l, hl, rfl⟩
      · rw [heq] at hl
        rcases putLock_eq_ok hput with ⟨-, -, -, rfl⟩ | ⟨-, -, -, hlocks⟩
        · exact .inl ⟨l, hl, rfl⟩
        · rcases hlocks l hl with rfl | hl
          · exact .inr rfl
          · exact .inl ⟨l, hl, rfl⟩
  | renew renewed =>
      rw [serve] at hl
      rcases h.renew_cases hwrite s renewed now with ⟨e, heq⟩ | ⟨-, heq⟩
      · rw [heq] at hl
        exact .inl ⟨l, hl, rfl⟩
      · rw [heq] at hl
        obtain ⟨old, hold, rfl⟩ := List.mem_map.mp hl
        split
        · exact .inr rfl
        · exact .inl ⟨old, hold, rfl⟩
  | close closed =>
      simp only [serve] at hl
      rcases h.close_cases hwrite s closed with ⟨e, heq⟩ | ⟨-, heq⟩
      · rw [heq] at hl
        exact .inl ⟨l, hl, rfl⟩
      · rw [heq] at hl
        exact .inl ⟨l, List.mem_of_mem_filter hl, rfl⟩
  | drop =>
      rw [show (h.serve s now .drop).2.locks = _ from locks_drop hwrite s] at hl
      exact .inl ⟨l, List.mem_of_mem_filter hl, rfl⟩
  | request asked =>
      refine .inl ⟨l, ?_, rfl⟩
      rw [serve] at hl
      rcases locks_run s h.access asked with hlocks | ⟨deleted, -, hlocks⟩
      · exact hlocks ▸ hl
      · dsimp only at hl
        rw [hlocks] at hl
        exact List.mem_of_mem_filter hl

namespace Shared

variable {ι : Type} [DecidableEq ι] {c : Shared ι} {lease now : Int} {used : List String}

theorem acquiredAt_le_of_act {e : Event ι} (hc : c.Proper lease used) (he : e.now ≤ now)
    (h : ∀ l ∈ c.store.locks, l.acquiredAt ≤ now) : ∀ l ∈ (c.act e).store.locks,
      l.acquiredAt ≤ now := by
  intro l hl
  cases hopen : c.handle? e.client with
  | none =>
      rw [act_of_dropped hopen] at hl
      exact h l hl
  | some k =>
      rw [act_of_open hopen] at hl
      rcases Handle.acquiredAt_of_serve (hc.settings _ k hopen).1 hl with ⟨old, hold, heq⟩ | heq
      · exact heq ▸ h old hold
      · exact heq ▸ he

/-- No lock is from the future, if the clocks show none. -/
theorem acquiredAt_le_of_run {history : List (Event ι)} (hc : c.Proper lease used)
    (hnew : (used ++ startedIn history).Nodup) (htimes : ∀ e ∈ history, e.now ≤ now)
    (h : ∀ l ∈ c.store.locks, l.acquiredAt ≤ now) :
    ∀ l ∈ (c.run history).store.locks, l.acquiredAt ≤ now := by
  induction history generalizing c used with
  | nil => exact h
  | cons e rest ih =>
      rw [startedIn_cons, ← List.append_assoc] at hnew
      exact ih (hc.act (not_mem_of_startedIn hnew)) hnew
        (fun f hf => htimes f (List.mem_cons_of_mem e hf))
        (acquiredAt_le_of_act hc (htimes e List.mem_cons_self) h)

end Shared

/-! ## What lengths protect -/

/-- Whether leases of a length keep locks from other sessions up to an age.  Whatever
clients that share a store have done, all with leases of that length: who asks for a lock
that was granted or renewed since and not ended early is not given it while it is younger,
however often it is asked for. -/
def Protects (lease : UInt64) (age : Int) : Prop :=
  ∀ (ι : Type) [DecidableEq ι] (s : Store) (history : List (Event ι)) (client : ι)
    (session : String) (owner : Owner) (since now : Int), s.locks = [] →
    (history.Pairwise fun e f => e.now ≤ f.now) → (Shared.startedIn history).Nodup →
    (Shared.opened lease s).Leased history client session owner since →
    (∀ e ∈ history, e.now ≤ now) →
      let after := (Shared.opened lease s).run history
      ∀ other h asking asked timeout, after.handle? other = some h → asking ≠ session →
        asked.id = owner.id → now + (timeout : Nat) < since + age →
          (h.lock after.store asking asked now timeout).2.2 ≠ .ok ()

theorem protects_of_le {lease : UInt64} {age : Int} (hlease : lease.toNat < 2 ^ 63)
    (hage : age ≤ lease.toNat) : Protects lease age := by
  intro ι _ s history client session owner since now hlocks htimes hnew hleased hpast after other h
    asking asked timeout hopen hne howner hnow
  have hopened : (Shared.opened lease s : Shared ι).Proper (leaseOf lease) [] :=
    Shared.proper_opened lease hlocks
  have hproper : after.Proper (leaseOf lease) (Shared.startedIn history) := hopened.run hnew
  obtain ⟨hwrite, hsame⟩ := hproper.settings other h hopen
  have hrecent : now + timeout < since + leaseOf lease := by
    rw [leaseOf_eq hlease]
    omega
  have hholds := Shared.holds_of_leased hopened hnew hleased htimes
    fun e he => by have := hpast e he; omega
  have hsince : since ≤ now := by
    obtain ⟨before, e, later, rfl, -, rfl, -⟩ := hleased
    exact hpast e (List.mem_append_right before List.mem_cons_self)
  exact lock_ne_of_heldSince hwrite hholds.held hsince (hsame ▸ hrecent) hne howner

/-- A store with one owner. -/
def owned : Store :=
  { dataspaces := [⟨1, "d"⟩], owners := [⟨1, 1, "o"⟩], lastDataspace := 1, lastOwner := 1 }

/-- Two clients with a session each, of which one takes the lock. -/
def contest : List (Event Bool) :=
  [⟨false, 0, .start "a"⟩, ⟨true, 0, .start "b"⟩, ⟨false, 0, .attempt "a" ⟨1, 1, "d", "o"⟩⟩]

theorem handle_of_contest (lease : UInt64) :
    ((Shared.opened lease owned).run contest).handle? true
      = some { access := .readWrite, lease := leaseOf lease, sessions := ["b"] } := by
  rw [Shared.opened]
  generalize leaseOf lease = n
  rfl

theorem store_of_contest (lease : UInt64) :
    ((Shared.opened lease owned).run contest).store = { owned with locks := [⟨1, "a", 0⟩] } := by
  rw [Shared.opened]
  generalize leaseOf lease = n
  rfl

theorem leased_of_contest (lease : UInt64) :
    (Shared.opened lease owned).Leased contest false "a" ⟨1, 1, "d", "o"⟩ 0 := by
  rw [Shared.opened]
  generalize leaseOf lease = n
  exact ⟨contest.take 2, _, [], rfl, rfl, rfl,
    ⟨{ access := .readWrite, lease := n, sessions := ["a"] }, rfl, rfl, rfl, rfl⟩,
    fun _ h => by cases h⟩

/-- Once the lease is over, the other client gets the lock. -/
theorem not_protects {lease : UInt64} {age wait : Int} (hwait : 0 ≤ wait) (hage : wait < age)
    (hlease : leaseOf lease ≤ wait) : ¬Protects lease age := by
  intro hprotects
  have hpast : ∀ e ∈ contest, e.now ≤ wait := by
    intro e he
    simp only [contest, List.mem_cons, List.not_mem_nil, or_false] at he
    rcases he with rfl | rfl | rfl <;> exact hwait
  have hrefused := hprotects Bool owned contest false "a" ⟨1, 1, "d", "o"⟩ 0 wait rfl
    (by decide) (by decide) (leased_of_contest lease) hpast true _ "b" ⟨1, 1, "d", "o"⟩ 0
    (handle_of_contest lease) (by decide) rfl (by simpa using hage)
  rw [store_of_contest] at hrefused
  generalize leaseOf lease = n at hlease hrefused
  have hgranted : (Handle.attempt { access := .readWrite, lease := n, sessions := ["b"] }
      { owned with locks := [⟨1, "a", 0⟩] } "b" ⟨1, 1, "d", "o"⟩ wait).2 = .ok true := by
    refine (attempt_eq_ok_iff rfl (List.mem_singleton.mpr rfl) rfl).mpr fun l hl => .inr ?_
    obtain rfl := Option.some.inj hl
    simpa using hlease
  exact hrefused (congrArg Prod.snd (lock_of_attempt hgranted 0))

/-- A length protects exactly up to itself, if it is below half the range, and not at all
otherwise. -/
theorem protects_iff {lease : UInt64} {age : Int} (hage : 0 < age) :
    Protects lease age ↔ lease.toNat < 2 ^ 63 ∧ age ≤ lease.toNat := by
  refine ⟨fun hprotects => ?_, fun ⟨hlease, hle⟩ => protects_of_le hlease hle⟩
  have hlease : lease.toNat < 2 ^ 63 := by
    by_contra hlong
    have hneg := leaseOf_neg (Nat.le_of_not_lt hlong)
    exact not_protects le_rfl hage hneg.le hprotects
  refine ⟨hlease, ?_⟩
  by_contra hshort
  exact not_protects (Int.natCast_nonneg lease.toNat) (by omega) (leaseOf_eq hlease).le hprotects

/-- No lock is younger than nothing. -/
theorem protects_of_nonpos {lease : UInt64} {age : Int} (hage : age ≤ 0) : Protects lease age := by
  intro ι _ s history client session owner since now _ _ _ hleased hpast after other h asking asked
    timeout _ _ _ hnow
  obtain ⟨before, e, later, rfl, -, rfl, -⟩ := hleased
  have hsince := hpast e (List.mem_append_right before List.mem_cons_self)
  omega

/-- A longer lease protects as much as a shorter one, below half the range. -/
theorem protects_mono {lease longer : UInt64} {age : Int} (hle : lease ≤ longer)
    (hlonger : longer.toNat < 2 ^ 63) (h : Protects lease age) : Protects longer age := by
  rcases le_or_gt age 0 with hage | hage
  · exact protects_of_nonpos hage
  · obtain ⟨-, hlease⟩ := (protects_iff hage).mp h
    have hle' := UInt64.le_iff_toNat_le.mp hle
    exact protects_of_le hlonger (by omega)

/-- With a lease from half the range on, whoever asks is given the lock. -/
theorem lock_of_long {ι : Type} [DecidableEq ι] {lease : UInt64} {s : Store}
    {history : List (Event ι)} {now : Int} (hlease : 2 ^ 63 ≤ lease.toNat) (hlocks : s.locks = [])
    (hnew : (Shared.startedIn history).Nodup) (hpast : ∀ e ∈ history, e.now ≤ now) {other : ι}
    {h : Handle} {asking : String} {asked : Owner} (timeout : Nat)
    (hopen : ((Shared.opened lease s).run history).handle? other = some h)
    (hasking : asking ∈ h.sessions)
    (howner : ((Shared.opened lease s).run history).store.hasOwner asked.id = true) :
    (h.lock ((Shared.opened lease s).run history).store asking asked now timeout).2
      = (now, .ok ()) := by
  have hopened : (Shared.opened lease s : Shared ι).Proper (leaseOf lease) [] :=
    Shared.proper_opened lease hlocks
  obtain ⟨hwrite, hsame⟩ := (hopened.run hnew).settings other h hopen
  have htimes := Shared.acquiredAt_le_of_run hopened hnew hpast (by simp [Shared.opened, hlocks])
  refine lock_of_attempt ((attempt_eq_ok_iff hwrite hasking howner).mpr fun l hl => .inr ?_) timeout
  have hage := htimes l (lockOn?_eq_some hl).1
  have hneg := leaseOf_neg hlease
  rw [hsame]
  omega

/-! ## Opening -/

/-- A store is opened with its lease as it is. -/
theorem lease_of_ofSettings {files files' : Files} {settings : Settings} {c : Connection}
    (h : Connection.ofSettings files settings = (files', .ok c)) :
    c.handle.lease = leaseOf settings.lease := by
  rw [Connection.ofSettings] at h
  split at h
  · have hc : Connection.inMemory settings.lease = c := Except.ok.inj (congrArg Prod.snd h)
    rw [← hc, Connection.inMemory]
  · obtain ⟨db, -, hc⟩ := map_eq_ok_iff.mp (congrArg Prod.snd h)
    rw [← hc]

/-- Settings are refused for no length but zero. -/
theorem validate_lease {settings : Settings} (h : settings.validate = .ok settings)
    {lease : UInt64} (hlease : lease ≠ 0) :
    { settings with lease }.validate = .ok { settings with lease } := by
  rw [Settings.validate] at h ⊢
  split at h
  · cases h
  · split at h
    · cases h
    · split at h
      · cases h
      · split at h
        · cases h
        · rename_i hbusy hpoll _ hmode
          simpa [hbusy, hpoll, hlease] using hmode

/-- Every length below half the range protects up to itself and no further, so that a
longer one protects as much as a shorter one.  From there on no length protects at all:
whatever clients have done, any session of theirs that is open is at once given the lock
on any owner that is there.  A store is opened with its lease as it is, and settings are
refused for no length but zero. -/
theorem lease_lengths (lease : UInt64) :
    (∀ age : Int, 0 < age → (Protects lease age ↔ lease.toNat < 2 ^ 63 ∧ age ≤ lease.toNat))
      ∧ (∀ longer : UInt64, lease ≤ longer → longer.toNat < 2 ^ 63 → ∀ age, Protects lease age →
        Protects longer age)
      ∧ (2 ^ 63 ≤ lease.toNat → ∀ (ι : Type) [DecidableEq ι] (s : Store) (history : List (Event ι))
          (now : Int), s.locks = [] → (Shared.startedIn history).Nodup →
          (∀ e ∈ history, e.now ≤ now) →
            let after := (Shared.opened lease s).run history
            ∀ other h asking asked timeout, after.handle? other = some h → asking ∈ h.sessions →
              after.store.hasOwner asked.id = true →
                (h.lock after.store asking asked now timeout).2 = (now, .ok ()))
      ∧ (∀ files settings files' c, settings.lease = lease →
        Connection.ofSettings files settings = (files', .ok c) → c.handle.lease = leaseOf lease)
      ∧ ∀ settings : Settings, settings.validate = .ok settings → lease ≠ 0 →
        { settings with lease }.validate = .ok { settings with lease } := by
  refine ⟨fun age hage => protects_iff hage, fun longer hle hlonger age h =>
    protects_mono hle hlonger h, ?_, ?_, fun settings h hlease => validate_lease h hlease⟩
  · intro hlease ι _ s history now hlocks hnew hpast after other h asking asked timeout hopen
      hasking howner
    exact lock_of_long hlease hlocks hnew hpast timeout hopen hasking howner
  · rintro files settings files' c rfl hopened
    exact lease_of_ofSettings hopened

/-- The default, and one millisecond less than the longest that can be given. -/
theorem lease_lengths_of_default :
    let longest : UInt64 := 18446744073709551614
    Protects 300000 300000 ∧ ¬Protects 300000 300001 ∧ Protects 300001 300000
      ∧ ¬Protects longest 1 ∧ ({ lease := longest } : Settings).validate = .ok { lease := longest }
      ∧ ∃ h, ((Shared.opened longest owned).run contest).handle? true = some h
        ∧ (h.lock ((Shared.opened longest owned).run contest).store "b" ⟨1, 1, "d", "o"⟩ 0 0).2
          = (0, .ok ()) := by
  intro longest
  obtain ⟨hexact, hmono, -, -, -⟩ := lease_lengths 300000
  obtain ⟨hnone, -, hgiven, -, hsettings⟩ := lease_lengths longest
  have hdefault : Protects 300000 300000 := (hexact 300000 (by decide)).mpr (by decide)
  refine ⟨hdefault, fun h => ?_, hmono 300001 (by decide) (by decide) 300000 hdefault,
    fun h => ?_, hsettings {} (by decide) (by decide), _, handle_of_contest longest, ?_⟩
  · exact absurd ((hexact 300001 (by decide)).mp h).2 (by decide)
  · exact absurd ((hnone 1 (by decide)).mp h).1 (by decide)
  · exact hgiven (by decide) Bool owned contest 0 rfl (by decide) (by decide) true _ "b" _ 0
      (handle_of_contest longest) (List.mem_singleton.mpr rfl) (by decide)

/-- With the longest lease that can be given, a lock is taken over in the millisecond in
which it was acquired. -/
theorem taken_over_at_once :
    let owner : Owner := ⟨1, 1, "d", "o"⟩
    let longest : UInt64 := 18446744073709551615
    let after := (Shared.opened longest owned).run contest
    let h : Handle := { access := .readWrite, lease := -1, sessions := ["b"] }
    after.handle? true = some h ∧ after.store.holder owner = some "a"
      ∧ (h.attempt after.store "b" owner 0).2 = .ok true
      ∧ (h.attempt after.store "b" owner 0).1.holder owner = some "b" := by
  decide +kernel

end DataTree
