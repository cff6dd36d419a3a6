import DataTree.Proofs.Store.Plan
import DataTree.Proofs.Store.Turns
import DataTree.Store.Request

/-!
# The rows of reachable stores

Whatever requests a store has seen, answered or refused, its rows hang
together: a request either removes rows with everything below them, or
applies edits that were planned against the store, or touches no rows.

## Main definitions

* `Request.Does` — what a request may do to a store.

## Main results

* `Request.does_run` — what a request does, whether it is answered or refused.
* `sound_run` — a request keeps a store sound.
* `sound_of_reachable` — so every reachable store is sound.
* `reachable_rows` — what that says of its rows.
-/

namespace DataTree

open DataTree.Path

/-! ## What requests do -/

/-- What a request may do to a store: nothing, or what it is for. -/
inductive Request.Does (s : Store) : Request → Store → Prop
  | nothing (asked : Request) : Does s asked s
  | createDataspace (name : String) (hnew : (s.dataspaces.any fun d => d.name = name) = false) :
      Does s (.createDataspace name)
        { s with dataspaces := s.dataspaces ++ [⟨s.lastDataspace + 1, name⟩]
                 lastDataspace := s.lastDataspace + 1 }
  | createOwner (dataspace : Dataspace) (name : String)
      (hnew : (s.owners.any fun o => o.dataspaceId = dataspace.id && o.name = name) = false)
      (hthere : (s.dataspaces.any fun d => d.id = dataspace.id) = true) :
      Does s (.createOwner dataspace name)
        { s with owners := s.owners ++ [⟨s.lastOwner + 1, dataspace.id, name⟩]
                 lastOwner := s.lastOwner + 1 }
  | deleteOwner (owner : Owner) (hthere : s.hasOwner owner.id = true) :
      Does s (.deleteOwner owner)
        { (s.removeRows fun r => r.owner = owner.id).1 with
          owners := s.owners.filter fun o => o.id ≠ owner.id
          locks := s.locks.filter fun l => l.owner ≠ owner.id }
  | write (access : Access) (owner : Owner) (w : Write) :
      Does s (.write owner w) (s.write access owner w).1
  | deleteForOwners (dataspace : Dataspace) (names : List String) :
      Does s (.deleteForOwners dataspace names) (s.clearOwners (s.owners.filter fun o =>
        o.dataspaceId = dataspace.id && names.contains o.name)).1

/-- A request that is refused for the handle, for what it names, or for rows too far
down does nothing; writes are refused in more ways. -/
theorem Request.does_run (asked : Request) (access : Access) (s : Store) :
    asked.Does s (asked.run access s) := by
  cases asked with
  | createDataspace name =>
      rw [Request.run, Store.createDataspace, Store.guarded]
      split
      · exact .nothing _
      · split
        · exact .nothing _
        · rename_i hnew
          exact .createDataspace name (Bool.eq_false_iff.mpr hnew)
  | createOwner dataspace name =>
      rw [Request.run, Store.createOwner, Store.guarded]
      split
      · exact .nothing _
      · split
        · exact .nothing _
        · rename_i hnew
          split
          · rename_i hthere
            exact .createOwner dataspace name (Bool.eq_false_iff.mpr hnew) hthere
          · exact .nothing _
  | deleteOwner owner =>
      rw [Request.run, Store.deleteOwner, Store.guarded]
      split
      · exact .nothing _
      · split
        · rename_i hthere
          split
          · exact .nothing _
          · exact .deleteOwner owner hthere
        · exact .nothing _
  | write owner w => exact .write access owner w
  | deleteForOwners dataspace names =>
      rw [Request.run, Store.deleteForOwners]
      split
      · exact .nothing _
      · rw [Store.guarded]
        split
        · exact .nothing _
        · split
          · exact .nothing _
          · exact .deleteForOwners dataspace names

namespace Store.Sound

variable {s : Store}

/-- Rows say nothing of the other tables but that their owners are there. -/
theorem of_rows_eq (h : s.Sound) {s' : Store} (hrows : s'.rows = s.rows)
    (hlast : s'.lastRow = s.lastRow)
    (howners : ∀ r ∈ s.rows, s'.hasOwner r.owner = true) : s'.Sound where
  ids := hrows ▸ h.ids
  fresh := by
    rw [hrows, hlast]
    exact h.fresh
  paths := hrows ▸ h.paths
  owned := hrows ▸ howners
  linked := hrows ▸ h.linked
  canonical := hrows ▸ h.canonical

/-! ## Writes -/

/-- The invariant of a list of edits: the store is sound, and the edits still
fit, those carried out included. -/
private theorem effect_of_fits {owner : Nat} {edits : List Edit} : ∀ e ∈ edits, ∀ s : Store,
    (s.Sound ∧ ∀ e ∈ edits, e.Fits owner s) → ¬e.Faults owner s → e.conflict? owner s = none →
      (e.effect owner s).Sound ∧ ∀ f ∈ edits, f.Fits owner (e.effect owner s) := by
  rintro e he s ⟨hs, hfits⟩ hfault hfree
  exact ⟨hs.effect (hfits e he) hfault hfree, fun f hf => (hfits f hf).effect e⟩

theorem commit (h : s.Sound) {owner : Owner} {change : Change}
    (hplanned : change.Planned owner.id s) : (change.commit s owner).1.Sound := by
  cases change with
  | edits es =>
      have hfits : ∀ e ∈ es, e.Fits owner.id s := fun e he => (hplanned e he).fits h
      exact (applyWithFallback_keeps effect_of_fits ⟨h, hfits⟩).1
  | unit es =>
      have hfits : ∀ e ∈ es, e.Fits owner.id s := fun e he => (hplanned e he).fits h
      exact (applyAsUnit_keeps effect_of_fits ⟨h, hfits⟩).1
  | removal ids => exact Change.remove_keeps Store.Sound h (h.removeRows _)
  | clear => exact Change.remove_keeps Store.Sound h (h.removeRows _)

theorem write (h : s.Sound) (access : Access) (owner : Owner) (w : Write) :
    (s.write access owner w).1.Sound := by
  rw [Store.write]
  split
  · exact h
  · rename_i change hplan
    split
    · exact h
    · exact h.commit (plan_planned h hplan)

/-! ## Owners -/

theorem deleteOwner (h : s.Sound) (id : Nat) (locks : List Lock) :
    Store.Sound { (s.removeRows fun r => r.owner = id).1 with
      owners := s.owners.filter fun o => o.id ≠ id
      locks := locks } := by
  refine (h.removeRows fun r => r.owner = id).of_rows_eq rfl rfl fun r hr => ?_
  -- the rows that stay belong to other owners, and those stay
  have hother := not_of_mem_survivors hr
  have hthere := h.owned r ((survivors_sublist _ _ _).subset hr)
  rw [decide_eq_false_iff_not] at hother
  rw [Store.hasOwner, List.any_eq_true] at hthere ⊢
  obtain ⟨o, ho, hid⟩ := hthere
  have hid' : o.id = r.owner := by simpa using hid
  refine ⟨o, List.mem_filter.mpr ⟨ho, ?_⟩, hid⟩
  rw [decide_eq_true_eq, hid']
  exact hother

theorem clearOwners (owners : List OwnerRow) {s : Store} (h : s.Sound) :
    (s.clearOwners owners).1.Sound := by
  induction owners generalizing s with
  | nil => exact h
  | cons o rest ih => exact ih (h.removeRows _)

end Store.Sound

/-! ## Runs -/

/-- A request keeps a store sound, whether it is answered or refused. -/
theorem sound_run {s : Store} (h : s.Sound) (access : Access) (request : Request) :
    (request.run access s).Sound := by
  have hdoes := request.does_run access s
  generalize request.run access s = s' at hdoes ⊢
  cases hdoes with
  | nothing => exact h
  | createDataspace name hnew => exact h.of_rows_eq rfl rfl h.owned
  | createOwner dataspace name hnew hthere =>
      refine h.of_rows_eq rfl rfl fun r hr => ?_
      have howner := h.owned r hr
      rw [Store.hasOwner] at howner ⊢
      rw [List.any_append, howner, Bool.true_or]
  | deleteOwner owner hthere => exact h.deleteOwner owner.id _
  | write access owner w => exact h.write access owner w
  | deleteForOwners dataspace names => exact h.clearOwners _

theorem sound_of_reachable {s : Store} (h : Reachable s) : s.Sound := by
  induction h with
  | empty => exact .empty
  | step access request _ ih => exact sound_run ih access request

/-- Every row of a sound store stands at or below the root of a tree of its
owner. -/
theorem Store.Sound.exists_root {s : Store} (h : s.Sound) {r : Row} (hr : r ∈ s.rows) :
    ∃ top ∈ s.rows, top.parent = none ∧ top.owner = r.owner ∧ AtOrBelow s.rows top r := by
  -- parents have smaller ids, so the induction is on the id of the row
  induction hid : r.id using Nat.strongRecOn generalizing r with
  | ind n ih =>
      cases hparent : r.parent with
      | none => exact ⟨r, hr, hparent, rfl, .self hr⟩
      | some p =>
          obtain ⟨q, hq, rfl, hlt, howner, -⟩ := h.linked r hr p hparent
          obtain ⟨top, htop, hnone, hsame, habove⟩ := ih q.id (hid ▸ hlt) hq rfl
          exact ⟨top, htop, hnone, hsame.trans howner, habove.step hr hparent⟩

/-- After any requests, the ids of the rows and the paths of each owner are
distinct, owners and parents are there, parents are earlier rows of the same
owner whose paths are extended, chains of parents end in the root of a tree,
and paths are canonical. -/
theorem reachable_rows {s : Store} (h : Reachable s) :
    (s.rows.map Row.id).Nodup
      ∧ (s.rows.map fun r => (r.owner, r.path)).Nodup
      ∧ (∀ r ∈ s.rows, s.hasOwner r.owner = true)
      ∧ (∀ r ∈ s.rows, ∀ p, r.parent = some p →
          ∃ q ∈ s.rows, q.id = p ∧ q.id < r.id ∧ q.owner = r.owner ∧ Extends q.path r.path)
      ∧ (∀ r ∈ s.rows, ∃ top ∈ s.rows, top.parent = none ∧ top.owner = r.owner
          ∧ AtOrBelow s.rows top r)
      ∧ ∀ r ∈ s.rows, normalize r.path = .ok r.path ∧ isRoot r.path = false := by
  have hs := sound_of_reachable h
  refine ⟨?_, ?_, hs.owned, hs.linked, fun r hr => hs.exists_root hr, hs.canonical⟩
  · exact List.pairwise_map.mpr (hs.ids.imp fun hlt => Nat.ne_of_lt hlt)
  · refine List.pairwise_map.mpr (hs.paths.imp fun hne heq => ?_)
    exact hne (Prod.mk.inj heq).1 (Prod.mk.inj heq).2

/-- A tree stored under other spellings of its paths, after which the same
tree is refused. -/
theorem reachable_rows_of_nested_tree :
    ∃ s : Store, Reachable s
      ∧ s.rows.map (fun r => (r.id, r.owner, r.path, r.parent))
        = [(1, 1, "/a", none), (2, 1, "/a/b[@k='1']", some 1)]
      ∧ (s.rows.map Row.id).Nodup := by
  let dataspace : Dataspace := ⟨1, "d"⟩
  let owner : Owner := ⟨1, 1, "d", "o"⟩
  let child := Node.leafless "/a/b[ @k = \"1\" ]"
  let tree : Node := .mk "/a" [] [(child.path, child)]
  have hreach := Reachable.empty
    |>.step .readWrite (.createDataspace "d")
    |>.step .readWrite (.createOwner dataspace "o")
    |>.step .readWrite (.write owner (.store [tree]))
    |>.step .readWrite (.write owner (.store [tree]))
  refine ⟨_, hreach, ?_, (reachable_rows hreach).1⟩
  decide +kernel

end DataTree
