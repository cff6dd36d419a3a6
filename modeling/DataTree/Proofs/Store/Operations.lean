import DataTree.Proofs.Store.Reachable
import DataTree.Store.Operation

/-!
# What operations keep

Besides requests, sessions change a store, but only its locks.  So what is
true of the rows after requests is true of them after any operations, and
the table of owners keeps its order: an owner comes under a new id, and no id
is given twice.

## Main definitions

* `Store.unlocked`, `Store.rowless` — a store without its locks, without its
  rows.
* `Store.Numbered` — the invariant of the table of owners.

## Main results

* `rowless_write`, `locks_run` — writes change rows only, and requests no
  locks but those on an owner that is deleted.
* `Operation.request_or_unlocked` — what operations there are.
* `Store.after_keeps` — what every operation keeps, a run of them keeps.
* `sound_after`, `numbered_after` — the two invariants after any operations.
-/

namespace DataTree

/-! ## Locks -/

/-- A store without its locks. -/
def Store.unlocked (s : Store) : Store := { s with locks := [] }

section Locks

variable {s s' : Store}

/-- Stores that agree but for their locks agree in owners and rows. -/
theorem tables_of_unlocked (h : s'.unlocked = s.unlocked) :
    s'.owners = s.owners ∧ s'.lastOwner = s.lastOwner ∧ s'.rows = s.rows
      ∧ s'.lastRow = s.lastRow := by
  obtain ⟨-, howners, hrows, -, -, hlastOwner, hlastRow⟩ := Store.mk.inj h
  exact ⟨howners, hlastOwner, hrows, hlastRow⟩

theorem unlocked_putLock {wanted : Lock} {lease : Int} (h : s.putLock wanted lease = .ok s') :
    s'.unlocked = s.unlocked := by
  rw [Store.putLock] at h
  split at h
  · split at h <;> cases h <;> rfl
  · split at h
    · cases h
      rfl
    · cases h

theorem unlocked_attempt (handle : Handle) (s : Store) (session : String) (owner : Owner)
    (now : Int) : (handle.attempt s session owner now).1.unlocked = s.unlocked := by
  rw [Handle.attempt]
  split
  · split
    · rfl
    · split
      · rfl
      · rename_i hput
        exact unlocked_putLock hput
  · rfl

theorem unlocked_lock (handle : Handle) (s : Store) (session : String) (owner : Owner)
    (now : Int) (timeout : Nat) :
    (handle.lock s session owner now timeout).1.unlocked = s.unlocked := by
  have hfirst := unlocked_attempt handle s session owner now
  rw [Handle.lock]
  split
  · rename_i hattempt
    rwa [hattempt] at hfirst
  · rename_i hattempt
    rwa [hattempt] at hfirst
  · rename_i between hattempt
    rw [hattempt] at hfirst
    split
    · exact hfirst
    · have hlast := unlocked_attempt handle between session owner (now + timeout)
      simp only
      split <;> rename_i hattempt <;> rw [hattempt] at hlast <;> exact hlast.trans hfirst

theorem unlocked_releaseLocks (s : Store) (sessions : List String) :
    (sessions.foldl Store.releaseLocks s).unlocked = s.unlocked := by
  induction sessions generalizing s with
  | nil => rfl
  | cons session rest ih => exact ih (s.releaseLocks session)

end Locks

/-! ## Requests -/

/-- A store without its rows. -/
def Store.rowless (s : Store) : Store := { s with rows := [], lastRow := 0 }

/-- Stores that agree but for their rows agree in owners and locks. -/
theorem tables_of_rowless {s s' : Store} (h : s'.rowless = s.rowless) :
    s'.owners = s.owners ∧ s'.lastOwner = s.lastOwner ∧ s'.locks = s.locks := by
  obtain ⟨-, howners, -, hlocks, -, hlastOwner, -⟩ := Store.mk.inj h
  exact ⟨howners, hlastOwner, hlocks⟩

/-- A write changes rows only. -/
theorem rowless_write (s : Store) (access : Access) (owner : Owner) (w : Write) :
    (s.write access owner w).1.rowless = s.rowless := by
  have heffect : ∀ {edits : List Edit}, ∀ e ∈ edits, ∀ t : Store, t.rowless = s.rowless →
      ¬e.Faults owner.id t → e.conflict? owner.id t = none →
      (e.effect owner.id t).rowless = s.rowless := by
    intro edits e he t h hfault hfree
    cases e with
    | remove id path => exact h
    | update id path expected attributes => exact h
    | insert parent draft => exact h
  rw [Store.write]
  split
  · rfl
  · rename_i change hplan
    split
    · rfl
    · cases change with
      | edits es => exact applyWithFallback_keeps heffect rfl
      | unit es => exact applyAsUnit_keeps heffect rfl
      | removal ids =>
          exact Change.remove_keeps (fun t => t.rowless = s.rowless) rfl rfl
      | clear =>
          exact Change.remove_keeps (fun t => t.rowless = s.rowless) rfl rfl

theorem rowless_clearOwners (s : Store) (owners : List OwnerRow) :
    (s.clearOwners owners).1.rowless = s.rowless := by
  induction owners generalizing s with
  | nil => rfl
  | cons o rest ih => exact ih _

/-- A request leaves locks alone, except those on an owner that it deletes. -/
theorem locks_run (s : Store) (access : Access) (asked : Request) :
    (asked.run access s).locks = s.locks
      ∨ ∃ owner, asked = .deleteOwner owner
        ∧ (asked.run access s).locks = s.locks.filter fun l => l.owner ≠ owner.id := by
  have hdoes := asked.does_run access s
  generalize asked.run access s = s' at hdoes ⊢
  cases hdoes with
  | nothing => exact .inl rfl
  | createDataspace name hnew => exact .inl rfl
  | createOwner dataspace name hnew hthere => exact .inl rfl
  | deleteOwner owner hthere => exact .inr ⟨owner, rfl, rfl⟩
  | write access owner w => exact .inl (tables_of_rowless (rowless_write s access owner w)).2.2
  | deleteForOwners dataspace names =>
      exact .inl (tables_of_rowless (rowless_clearOwners s _)).2.2

/-! ## Operations -/

/-- An operation is a request or changes nothing but locks. -/
theorem Operation.request_or_unlocked (operation : Operation) (s : Store) :
    (∃ access asked, operation = .request access asked)
      ∨ (operation.run s).unlocked = s.unlocked := by
  cases operation with
  | request access asked => exact .inl ⟨access, asked, rfl⟩
  | lock handle session owner now timeout =>
      exact .inr (unlocked_lock handle s session owner now timeout)
  | renew handle session now =>
      refine .inr ?_
      rw [Operation.run, Handle.renew]
      split
      · split <;> rfl
      · rfl
  | close handle session =>
      refine .inr ?_
      rw [Operation.run, Handle.close]
      split
      · split <;> rfl
      · rfl
  | drop handle =>
      refine .inr ?_
      rw [Operation.run, Handle.drop]
      split
      · rfl
      · exact unlocked_releaseLocks s handle.sessions

/-- What every operation of a list keeps, all of them keep. -/
theorem Store.after_keeps {I : Store → Prop} {operations : List Operation}
    (hstep : ∀ operation ∈ operations, ∀ s, I s → I (operation.run s)) {s : Store} (h : I s) :
    I (s.after operations) := by
  induction operations generalizing s with
  | nil => exact h
  | cons operation rest ih =>
      exact ih (fun next hnext => hstep next (List.mem_cons_of_mem operation hnext))
        (hstep operation List.mem_cons_self s h)

theorem Store.Sound.of_unlocked {s t : Store} (h : s.Sound) (heq : t.unlocked = s.unlocked) :
    t.Sound := by
  obtain ⟨howners, -, hrows, hlast⟩ := tables_of_unlocked heq
  refine h.of_rows_eq hrows hlast fun r hr => ?_
  rw [Store.hasOwner, howners]
  exact h.owned r hr

/-- Operations keep a store sound. -/
theorem sound_operation (operation : Operation) (s : Store) (h : s.Sound) :
    (operation.run s).Sound := by
  rcases operation.request_or_unlocked s with ⟨access, asked, rfl⟩ | hsame
  · exact sound_run h access asked
  · exact h.of_unlocked hsame

theorem sound_after (history : List Operation) : (Store.empty.after history).Sound :=
  Store.after_keeps (fun operation _ => sound_operation operation) .empty

/-! ## The table of owners -/

/-- Owners have ids of their own, and the next id is new. -/
structure Store.Numbered (s : Store) : Prop where
  ids : s.owners.Pairwise fun o p => o.id < p.id
  fresh : ∀ o ∈ s.owners, o.id ≤ s.lastOwner

namespace Store.Numbered

variable {s t : Store}

theorem empty : Store.empty.Numbered where
  ids := .nil
  fresh := by simp [Store.empty]

theorem eq_of_id (h : s.Numbered) {o p : OwnerRow} (ho : o ∈ s.owners) (hp : p ∈ s.owners)
    (hid : o.id = p.id) : o = p := by
  by_contra hne
  have hdistinct : s.owners.Pairwise fun o p => o.id ≠ p.id := h.ids.imp Nat.ne_of_lt
  have hsymm : Std.Symm fun o p : OwnerRow => o.id ≠ p.id := ⟨fun _ _ => Ne.symm⟩
  exact hdistinct.forall ho hp hne hid

theorem of_sublist (h : s.Numbered) (howners : t.owners.Sublist s.owners)
    (hlast : t.lastOwner = s.lastOwner) : t.Numbered where
  ids := h.ids.sublist howners
  fresh := by
    rw [hlast]
    exact fun o ho => h.fresh o (howners.subset ho)

theorem of_owners_eq (h : s.Numbered) (howners : t.owners = s.owners)
    (hlast : t.lastOwner = s.lastOwner) : t.Numbered :=
  h.of_sublist (howners ▸ .refl _) hlast

theorem append (h : s.Numbered) {o : OwnerRow} (hid : o.id = s.lastOwner + 1)
    (howners : t.owners = s.owners ++ [o]) (hlast : t.lastOwner = o.id) : t.Numbered where
  ids := by
    rw [howners]
    refine List.pairwise_append.mpr ⟨h.ids, List.pairwise_singleton _ _, fun p hp q hq => ?_⟩
    rw [List.mem_singleton.mp hq, hid]
    exact Nat.lt_succ_of_le (h.fresh p hp)
  fresh := by
    intro p hp
    rw [howners] at hp
    rcases List.mem_append.mp hp with hp | hp
    · rw [hlast, hid]
      exact Nat.le_succ_of_le (h.fresh p hp)
    · rw [List.mem_singleton.mp hp, hlast]

end Store.Numbered

/-- A request keeps the owners numbered. -/
theorem numbered_run {s : Store} (h : s.Numbered) (access : Access) (asked : Request) :
    (asked.run access s).Numbered := by
  have hdoes := asked.does_run access s
  generalize asked.run access s = s' at hdoes ⊢
  cases hdoes with
  | nothing => exact h
  | createDataspace name hnew => exact h.of_owners_eq rfl rfl
  | createOwner dataspace name hnew hthere => exact h.append rfl rfl rfl
  | deleteOwner owner hthere => exact h.of_sublist List.filter_sublist rfl
  | write access owner w =>
      obtain ⟨howners, hlast, -⟩ := tables_of_rowless (rowless_write s access owner w)
      exact h.of_owners_eq howners hlast
  | deleteForOwners dataspace names =>
      obtain ⟨howners, hlast, -⟩ := tables_of_rowless (rowless_clearOwners s _)
      exact h.of_owners_eq howners hlast

theorem numbered_operation (operation : Operation) (s : Store) (h : s.Numbered) :
    (operation.run s).Numbered := by
  rcases operation.request_or_unlocked s with ⟨access, asked, rfl⟩ | hsame
  · exact numbered_run h access asked
  · obtain ⟨howners, hlast, -, -⟩ := tables_of_unlocked hsame
    exact h.of_owners_eq howners hlast

theorem numbered_after (history : List Operation) : (Store.empty.after history).Numbered :=
  Store.after_keeps (fun operation _ => numbered_operation operation) .empty

end DataTree
