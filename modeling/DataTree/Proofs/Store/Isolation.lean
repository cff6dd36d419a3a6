import DataTree.Proofs.Store.Operations
import DataTree.Proofs.Store.Owned
import Mathlib.Data.List.Perm.Subperm

/-!
# Owners do not disturb each other

Removals and updates name rows by their ids, removals take along whatever
hangs below, and no such change asks whose rows these are.  What keeps the
owners apart is that every plan names rows of its own owner, that ids are
never used twice, and that rows hang under rows of their owner.  So whatever
operations run, as long as none of them is about an owner, its rows stay as
they are, and every read through it gives what it gave before.

## Main definitions

* `Beside` — a store while edits of one owner run, seen from another.
* `Undisturbed` — a store after operations that spare an owner.

## Main results

* `rowsOf_removeRows`, `rowsOf_write` — what removals and writes leave to
  other owners.
* `Undisturbed.run`, `undisturbed_after` — an operation that spares an owner
  leaves it undisturbed, and so does a run of them.
* `owner_isolated` — reads through an owner before and after such a run.
-/

namespace DataTree

open DataTree.Path

/-! ## Removals and edits -/

/-- A removal that names no row of an owner takes none of its rows along. -/
theorem rowsOf_removeRows {s : Store} (hs : s.Sound) {other : Nat} {p : Row → Bool}
    (h : ∀ r ∈ s.rows, p r = true → r.owner ≠ other) :
    (s.removeRows p).1.rowsOf other = s.rowsOf other := by
  have hsub : ((s.removeRows p).1.rowsOf other).Sublist (s.rowsOf other) :=
    (Store.survivors_sublist p [] s.rows).filter _
  have hnodup : (s.rowsOf other).Nodup := hs.nodup.filter _
  have hall : ∀ r ∈ s.rowsOf other, r ∈ (s.removeRows p).1.rowsOf other := by
    intro r hr
    obtain ⟨hr, howner⟩ := Store.mem_rowsOf.mp hr
    refine Store.mem_rowsOf.mpr ⟨(Store.mem_survivors_iff hs.ordered).mpr ⟨hr, ?_⟩, howner⟩
    rintro ⟨top, hbelow, hp⟩
    exact h top hbelow.mem_top hp ((hs.eq_or_extends hbelow).1.trans howner)
  exact hsub.eq_of_length_le (hnodup.subperm hall).length_le

/-- Changes of rows that keep their owners and spare the rows of one leave
that one its rows. -/
theorem rowsOf_mapped {s : Store} {other : Nat} {f : Row → Row}
    (howner : ∀ r, (f r).owner = r.owner) (hsame : ∀ r ∈ s.rowsOf other, f r = r) :
    Store.rowsOf { s with rows := s.rows.map f } other = s.rowsOf other := by
  have hfilter : (s.rows.map f).filter (fun r => r.owner = other) = (s.rowsOf other).map f := by
    rw [List.filter_map, Store.rowsOf]
    congr 1
    refine List.filter_congr fun r _ => ?_
    rw [Function.comp, howner]
  exact hfilter.trans ((List.map_congr_left hsame).trans (List.map_id _))

/-- Emptying an owner takes no row of another along. -/
theorem rowsOf_cleared {s : Store} (hs : s.Sound) {owner other : Nat} (hne : other ≠ owner) :
    (s.removeRows fun r => r.owner = owner && r.parent.isNone).1.rowsOf other = s.rowsOf other := by
  refine rowsOf_removeRows hs fun r _ hp => ?_
  rw [Bool.and_eq_true, decide_eq_true_eq] at hp
  rw [hp.1]
  exact hne.symm

/-- Whether the row that an edit removes or updates belongs to an owner,
should it still be there. -/
def Edit.StaysWith (owner : Nat) (s : Store) : Edit → Prop
  | .remove id _ | .update id _ _ _ => id ≤ s.lastRow ∧ ∀ r ∈ s.rows, r.id = id → r.owner = owner
  | .insert .. => True

theorem Edit.Planned.staysWith {owner : Nat} {s : Store} {e : Edit} (h : e.Planned owner s)
    (hs : s.Sound) : e.StaysWith owner s := by
  cases e with
  | remove id path =>
      obtain ⟨r, hr, howner, rfl, -⟩ := h
      exact ⟨hs.fresh r hr, fun q hq hid => by rw [hs.eq_of_id hq hr hid, howner]⟩
  | update id path expected attributes =>
      obtain ⟨r, hr, howner, rfl, -, -⟩ := h
      exact ⟨hs.fresh r hr, fun q hq hid => by rw [hs.eq_of_id hq hr hid, howner]⟩
  | insert parent draft => trivial

theorem Edit.StaysWith.follows {owner : Nat} {s t : Store} {e : Edit} (h : e.StaysWith owner s)
    (hst : s.Follows t) : e.StaysWith owner t := by
  have hrow : ∀ id, (id ≤ s.lastRow ∧ ∀ r ∈ s.rows, r.id = id → r.owner = owner) →
      id ≤ t.lastRow ∧ ∀ r ∈ t.rows, r.id = id → r.owner = owner := by
    rintro id ⟨hle, hown⟩
    refine ⟨Nat.le_trans hle hst.last, fun r hr hid => ?_⟩
    obtain ⟨q, hq, hqid, hqowner, -⟩ := hst.rows r hr (hid ▸ hle)
    rw [← hqowner]
    exact hown q hq (hqid.trans hid)
  cases e with
  | remove id path => exact hrow id h
  | update id path expected attributes => exact hrow id h
  | insert parent draft => trivial

/-- An edit that stays with its owner leaves the rows of every other. -/
theorem rowsOf_effect {s : Store} (hs : s.Sound) {owner other : Nat} (hne : other ≠ owner)
    {e : Edit} (h : e.StaysWith owner s) : (e.effect owner s).rowsOf other = s.rowsOf other := by
  cases e with
  | remove id path =>
      refine rowsOf_removeRows hs fun r hr hp => ?_
      rw [h.2 r hr (of_decide_eq_true hp)]
      exact hne.symm
  | update id path expected attributes =>
      refine rowsOf_mapped (fun r => ?_) fun r hr => ?_
      · split <;> rfl
      · obtain ⟨hr, hother⟩ := Store.mem_rowsOf.mp hr
        exact if_neg fun hid => hne (hother ▸ h.2 r hr hid)
  | insert parent draft =>
      have hnew : (draft.rows owner parent (s.lastRow + 1)).filter (fun r => r.owner = other)
          = [] := by
        rw [List.filter_eq_nil_iff]
        intro r hr
        rw [draft.owner_of_mem_rows hr, decide_eq_true_eq]
        exact hne.symm
      show (s.rows ++ _).filter _ = _
      rw [List.filter_append, hnew, List.append_nil, Store.rowsOf]

/-- A store `t` while edits planned for one owner against `s` run, as seen
from another owner. -/
structure Beside (owner other : Nat) (edits : List Edit) (s t : Store) : Prop where
  sound : t.Sound
  fits : ∀ e ∈ edits, e.Fits owner t
  stays : ∀ e ∈ edits, e.StaysWith owner t
  rows : t.rowsOf other = s.rowsOf other

namespace Beside

variable {owner other : Nat} {edits : List Edit} {s : Store}

theorem of_planned (hs : s.Sound) (h : ∀ e ∈ edits, e.Planned owner s) :
    Beside owner other edits s s where
  sound := hs
  fits := fun e he => (h e he).fits hs
  stays := fun e he => (h e he).staysWith hs
  rows := rfl

theorem effect (hne : other ≠ owner) : ∀ e ∈ edits, ∀ t : Store, Beside owner other edits s t →
    ¬e.Faults owner t → e.conflict? owner t = none →
      Beside owner other edits s (e.effect owner t) := by
  intro e he t h hfault hfree
  exact
    { sound := h.sound.effect (h.fits e he) hfault hfree
      fits := fun f hf => (h.fits f hf).effect e
      stays := fun f hf => (h.stays f hf).follows (Store.follows_effect owner t e)
      rows := (rowsOf_effect h.sound hne (h.stays e he)).trans h.rows }

end Beside

/-! ## Writes -/

/-- A removal by ids names rows of its owner only. -/
def Change.RemovesOwn (owner : Nat) (s : Store) : Change → Prop
  | .removal ids => ∀ r ∈ s.rows, r.id ∈ ids → r.owner = owner
  | .edits _ | .unit _ | .clear => True

section

variable {s : Store} {owner : Owner}

theorem removesOwn_of_rows (hs : s.Sound) {id : Nat} {rows : List Row}
    (hrows : ∀ r ∈ rows, r ∈ s.rowsOf id) :
    (Change.removal (rows.map Row.id)).RemovesOwn id s := by
  intro r hr hid
  obtain ⟨q, hq, hid⟩ := List.mem_map.mp hid
  obtain ⟨hmem, howner⟩ := Store.mem_rowsOf.mp (hrows q hq)
  rw [hs.eq_of_id hr hmem hid.symm]
  exact howner

theorem removesOwn_of_removalOf (hs : s.Sound) {path target : String} {change : Change}
    (h : removalOf owner path (s.rowsAt owner.id target) = .ok change) :
    change.RemovesOwn owner.id s := by
  rw [removalOf] at h
  split at h
  · cases h
  · cases h
    exact removesOwn_of_rows hs fun r hr => Store.mem_rowsOf_of_lookup hr

/-- The removals of a plan name rows of its owner. -/
theorem plan_removesOwn (hs : s.Sound) {w : Write} {change : Change}
    (h : w.plan s owner = .ok change) : change.RemovesOwn owner.id s := by
  have hadd : ∀ {parent : String} {nodes : List Node},
      planAdd s owner parent nodes = .ok change → change.RemovesOwn owner.id s := by
    intro parent nodes h
    obtain ⟨place, -, h⟩ := bind_eq_ok_iff.mp h
    obtain ⟨ds, -, h⟩ := bind_eq_ok_iff.mp h
    cases h
    trivial
  cases w with
  | store nodes =>
      obtain ⟨ds, -, rfl⟩ := map_eq_ok_iff.mp h
      trivial
  | add parent nodes => exact hadd h
  | addList parent elements =>
      rw [Write.plan, planAddList] at h
      split at h
      · cases h
      · exact hadd h
  | updateLeaves path leaves =>
      obtain ⟨target, -, h⟩ := bind_eq_ok_iff.mp h
      obtain ⟨es, -, h⟩ := bind_eq_ok_iff.mp h
      cases h
      trivial
  | updateBatch updates =>
      obtain ⟨es, -, rfl⟩ := map_eq_ok_iff.mp h
      trivial
  | updateTrees nodes =>
      obtain ⟨ds, -, h⟩ := bind_eq_ok_iff.mp h
      obtain ⟨es, -, h⟩ := bind_eq_ok_iff.mp h
      cases h
      trivial
  | replaceList parent elements =>
      obtain ⟨id, stored, ds, es, -, -, -, rfl⟩ := planReplaceList_eq_ok hs h
      trivial
  | delete path =>
      rw [Write.plan, planDelete] at h
      split at h
      · cases h
        trivial
      · obtain ⟨target, -, h⟩ := bind_eq_ok_iff.mp h
        exact removesOwn_of_removalOf hs h
  | deleteMany paths =>
      rw [Write.plan, planDeleteMany] at h
      split at h
      · cases h
        trivial
      · split at h
        · cases h
          exact removesOwn_of_rows hs fun r hr => Store.mem_rowsOf_of_lookup hr
        · cases h
  | deleteList path =>
      obtain ⟨q, -, h⟩ := bind_eq_ok_iff.mp h
      simp only at h
      split at h
      · cases h
      · exact removesOwn_of_removalOf hs h
  | deleteAll =>
      cases h
      trivial

theorem rowsOf_commit (hs : s.Sound) {other : Nat} (hne : other ≠ owner.id) {change : Change}
    (hplanned : change.Planned owner.id s) (hown : change.RemovesOwn owner.id s) :
    (change.commit s owner).1.rowsOf other = s.rowsOf other := by
  cases change with
  | edits es =>
      exact (applyWithFallback_keeps (Beside.effect hne) (Beside.of_planned hs hplanned)).rows
  | unit es =>
      exact (applyAsUnit_keeps (Beside.effect hne) (Beside.of_planned hs hplanned)).rows
  | removal ids =>
      refine Change.remove_keeps (fun t => t.rowsOf other = s.rowsOf other) rfl
        (rowsOf_removeRows hs fun r hr hp => ?_)
      rw [hown r hr (List.contains_iff_mem.mp hp)]
      exact hne.symm
  | clear =>
      exact Change.remove_keeps (fun t => t.rowsOf other = s.rowsOf other) rfl
        (rowsOf_cleared hs hne)

/-- A write leaves the rows of every other owner. -/
theorem rowsOf_write (hs : s.Sound) (access : Access) {other : Nat} (hne : other ≠ owner.id)
    (w : Write) : (s.write access owner w).1.rowsOf other = s.rowsOf other := by
  rw [Store.write]
  split
  · rfl
  · rename_i change hplan
    split
    · rfl
    · exact rowsOf_commit hs hne (plan_planned hs hplan) (plan_removesOwn hs hplan)

end

/-! ## Many owners at once -/

theorem rowsOf_clearOwners {s : Store} (hs : s.Sound) {other : Nat} {owners : List OwnerRow}
    (h : ∀ o ∈ owners, other ≠ o.id) : (s.clearOwners owners).1.rowsOf other = s.rowsOf other := by
  induction owners generalizing s with
  | nil => rfl
  | cons o rest ih =>
      have hrest := ih (hs.removeRows fun r => r.owner = o.id && r.parent.isNone)
        fun p hp => h p (List.mem_cons_of_mem o hp)
      exact hrest.trans (rowsOf_cleared hs (h o List.mem_cons_self))

/-! ## Runs that spare an owner -/

/-- A store `t` after operations on `s` that spare an owner. -/
structure Undisturbed (o : OwnerRow) (s t : Store) : Prop where
  sound : t.Sound
  numbered : t.Numbered
  there : o ∈ t.owners
  rows : t.rowsOf o.id = s.rowsOf o.id

/-- A request that spares an owner removes neither it nor any of its rows. -/
theorem spared_run {o : OwnerRow} {s : Store} (hs : s.Sound) (hn : s.Numbered)
    (ho : o ∈ s.owners) (access : Access) {asked : Request} (h : asked.Spares o) :
    o ∈ (asked.run access s).owners ∧ (asked.run access s).rowsOf o.id = s.rowsOf o.id := by
  have hdoes := asked.does_run access s
  generalize asked.run access s = s' at hdoes ⊢
  cases hdoes with
  | nothing => exact ⟨ho, rfl⟩
  | createDataspace name hnew => exact ⟨ho, rfl⟩
  | createOwner dataspace name hnew hthere => exact ⟨List.mem_append_left _ ho, rfl⟩
  | deleteOwner owner hthere =>
      refine ⟨List.mem_filter.mpr ⟨ho, decide_eq_true h.symm⟩, ?_⟩
      refine rowsOf_removeRows hs fun r _ hp => ?_
      rw [of_decide_eq_true hp]
      exact h
  | write access owner w =>
      refine ⟨?_, rowsOf_write hs access h.symm w⟩
      rw [(tables_of_rowless (rowless_write s access owner w)).1]
      exact ho
  | deleteForOwners dataspace names =>
      have hnamed : ∀ p ∈ s.owners.filter
          (fun p => p.dataspaceId = dataspace.id && names.contains p.name), o.id ≠ p.id := by
        intro p hp hid
        obtain ⟨hp, hnamed⟩ := List.mem_filter.mp hp
        rw [Bool.and_eq_true, decide_eq_true_eq, List.contains_iff_mem] at hnamed
        obtain rfl := hn.eq_of_id ho hp hid
        exact h ⟨hnamed.1.symm, hnamed.2⟩
      refine ⟨?_, rowsOf_clearOwners hs hnamed⟩
      rw [(tables_of_rowless (rowless_clearOwners s _)).1]
      exact ho

/-- An operation that spares an owner leaves it undisturbed. -/
theorem Undisturbed.run {o : OwnerRow} {s t : Store} (h : Undisturbed o s t)
    {operation : Operation} (hspares : operation.Spares o) :
    Undisturbed o s (operation.run t) := by
  have hkept : o ∈ (operation.run t).owners
      ∧ (operation.run t).rowsOf o.id = t.rowsOf o.id := by
    rcases operation.request_or_unlocked t with ⟨access, asked, rfl⟩ | hsame
    · exact spared_run h.sound h.numbered h.there access hspares
    · obtain ⟨howners, -, hrows, -⟩ := tables_of_unlocked hsame
      rw [howners, Store.rowsOf, hrows]
      exact ⟨h.there, rfl⟩
  exact
    { sound := sound_operation operation t h.sound
      numbered := numbered_operation operation t h.numbered
      there := hkept.1
      rows := hkept.2.trans h.rows }

/-- So do operations in turn that all spare it. -/
theorem undisturbed_after {o : OwnerRow} {s : Store} (hs : s.Sound) (hn : s.Numbered)
    (ho : o ∈ s.owners) {operations : List Operation}
    (hspares : ∀ operation ∈ operations, operation.Spares o) :
    Undisturbed o s (s.after operations) :=
  Store.after_keeps (I := Undisturbed o s)
    (fun operation hmem _ h => h.run (hspares operation hmem))
    { sound := hs, numbered := hn, there := ho, rows := rfl }

/-- Reads see the rows of one owner, so they agree where these do. -/
theorem reads_eq_of_rowsOf {s t : Store} (hs : s.Sound) (ht : t.Sound) {owner : Owner}
    (h : t.rowsOf owner.id = s.rowsOf owner.id) (fetch : Fetch) :
    (∀ path, t.get owner path fetch = s.get owner path fetch)
      ∧ (∀ paths, t.getMany owner paths fetch = s.getMany owner paths fetch)
      ∧ ∀ path, t.query owner path fetch = s.query owner path fetch := by
  have honly : t.only owner.id = s.only owner.id := by rw [Store.only, h, Store.only]
  refine ⟨fun path => ?_, fun paths => ?_, fun path => ?_⟩
  · rw [← get_only ht, honly, get_only hs]
  · rw [← getMany_only ht, honly, getMany_only hs]
  · rw [← query_only ht, honly, query_only hs]

/-- Whatever operations have been run, further ones that are all about others
than an owner leave it and its rows as they are, and every read through it,
to any depth, gives what it gave before. -/
theorem owner_isolated {history later : List Operation} {o : OwnerRow}
    (ho : o ∈ (Store.empty.after history).owners)
    (hspares : ∀ operation ∈ later, operation.Spares o) :
    let s := Store.empty.after history
    let t := s.after later
    o ∈ t.owners ∧ t.rowsOf o.id = s.rowsOf o.id
      ∧ ∀ owner : Owner, owner.id = o.id → ∀ fetch : Fetch,
        (∀ path, t.get owner path fetch = s.get owner path fetch)
          ∧ (∀ paths, t.getMany owner paths fetch = s.getMany owner paths fetch)
          ∧ ∀ path, t.query owner path fetch = s.query owner path fetch := by
  intro s t
  have hs : s.Sound := sound_after history
  have hn : s.Numbered := numbered_after history
  have hlater : Undisturbed o s t := undisturbed_after hs hn ho hspares
  refine ⟨hlater.there, hlater.rows, fun owner hid => reads_eq_of_rowsOf hs hlater.sound ?_⟩
  rw [hid]
  exact hlater.rows

/-- Two owners of equal trees, one of which is changed, fails to store its
tree again, is emptied and removed, and comes back, while a session locks the
other. -/
theorem owner_isolated_of_equal_trees :
    let mine : OwnerRow := ⟨1, 1, "a"⟩
    let owner : Owner := ⟨1, 1, "d", "a"⟩
    let other : Owner := ⟨2, 1, "d", "b"⟩
    let again : Owner := ⟨3, 1, "d", "b"⟩
    let child : Node := .mk "/x/y[@k='1']" [("n", .bool true)] []
    let tree : Node := .mk "/x" [] [(child.path, child)]
    let handle : Handle := { access := .readWrite, lease := 1000, sessions := ["t"] }
    let request := Operation.request .readWrite
    let history := [request (.createDataspace "d"), request (.createOwner ⟨1, "d"⟩ "a"),
      request (.createOwner ⟨1, "d"⟩ "b"), request (.write owner (.store [tree])),
      request (.write other (.store [tree]))]
    let later := [request (.write other (.updateLeaves "/x" [("m", .null)])),
      request (.write other (.store [tree])), .lock handle "t" owner 5 0,
      request (.deleteForOwners ⟨1, "d"⟩ ["b"]), request (.deleteOwner other),
      request (.createOwner ⟨1, "d"⟩ "b"), request (.write again (.store [tree])),
      .close handle "t"]
    let s := Store.empty.after history
    let t := s.after later
    mine ∈ s.owners ∧ (∀ operation ∈ later, operation.Spares mine)
      ∧ s.rows.map (fun r => (r.id, r.owner, r.path, r.parent))
        = [(1, 1, "/x", none), (2, 1, "/x/y[@k='1']", some 1),
          (3, 2, "/x", none), (4, 2, "/x/y[@k='1']", some 3)]
      ∧ t.rows.map (fun r => (r.id, r.owner, r.path, r.parent))
        = [(1, 1, "/x", none), (2, 1, "/x/y[@k='1']", some 1),
          (5, 3, "/x", none), (6, 3, "/x/y[@k='1']", some 5)]
      ∧ t.rowsOf 1 = s.rowsOf 1
      ∧ (s.query owner "//y/ancestor::x" .all).toOption.map (List.map Node.path)
        = some ["/x"]
      ∧ t.query owner "//y/ancestor::x" .all
        = s.query owner "//y/ancestor::x" .all := by
  intro mine owner other again child tree handle request history later s t
  obtain ⟨hmine, hbefore, hafter, hfound⟩ :
      mine ∈ s.owners
        ∧ s.rows.map (fun r => (r.id, r.owner, r.path, r.parent))
          = [(1, 1, "/x", none), (2, 1, "/x/y[@k='1']", some 1),
            (3, 2, "/x", none), (4, 2, "/x/y[@k='1']", some 3)]
        ∧ t.rows.map (fun r => (r.id, r.owner, r.path, r.parent))
          = [(1, 1, "/x", none), (2, 1, "/x/y[@k='1']", some 1),
            (5, 3, "/x", none), (6, 3, "/x/y[@k='1']", some 5)]
        ∧ (s.query owner "//y/ancestor::x" .all).toOption.map (List.map Node.path)
          = some ["/x"] := by
    decide +kernel
  have hspares : ∀ operation ∈ later, operation.Spares mine := by decide +kernel
  obtain ⟨-, hrows, hreads⟩ := owner_isolated hmine hspares
  exact ⟨hmine, hspares, hbefore, hafter, hrows, hfound, (hreads owner rfl .all).2.2 _⟩

end DataTree
