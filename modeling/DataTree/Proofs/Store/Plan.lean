import DataTree.Proofs.Store.Reconcile
import DataTree.Store.Write

/-!
# What a plan says

A plan is made against the store as it is, so the edits of every write name
rows of its owner as they are, and every draft to insert is sound and goes
under a row whose path it extends.

## Main definitions

* `Store.listRows` — the rows that a replacement of a list takes for its elements.

## Main results

* `plan_planned` — all edits of a plan are planned against the store.
* `write_eq_ok` — a write that succeeds carries out its plan.
-/

namespace DataTree

open DataTree.Path

section

variable {s : Store} {owner : Owner}

/-! ## Rows by name -/

theorem rowAt?_eq_some {id : Nat} {path : String} {r : Row} (h : s.rowAt? id path = some r) :
    r ∈ s.rows ∧ r.owner = id ∧ r.path = path := by
  have hfound := List.find?_some h
  rw [Bool.and_eq_true, decide_eq_true_eq, decide_eq_true_eq] at hfound
  exact ⟨List.mem_of_find?_eq_some h, hfound⟩

/-- The row of an owner at a path is the only one. -/
theorem rowAt?_eq_some_iff (hs : s.Sound) {id : Nat} {path : String} {r : Row} :
    s.rowAt? id path = some r ↔ r ∈ s.rows ∧ r.owner = id ∧ r.path = path := by
  refine ⟨rowAt?_eq_some, fun ⟨hr, howner, hpath⟩ => ?_⟩
  cases hfind : s.rowAt? id path with
  | none =>
      have hnot := List.find?_eq_none.mp hfind r hr
      simp [howner, hpath] at hnot
  | some q =>
      obtain ⟨hq, hqowner, hqpath⟩ := rowAt?_eq_some hfind
      rw [hs.eq_of_path hq hr (hqowner.trans howner.symm) (hqpath.trans hpath.symm)]

theorem rowNamed_eq_ok {path : String} {r : Row} (h : s.rowNamed owner path = .ok r) :
    r ∈ s.rows ∧ r.owner = owner.id ∧ normalize path = .ok r.path := by
  rw [Store.rowNamed] at h
  obtain ⟨target, htarget, h⟩ := bind_eq_ok_iff.mp h
  split at h
  · rename_i found hfound
    cases h
    obtain ⟨hr, howner, rfl⟩ := rowAt?_eq_some hfound
    exact ⟨hr, howner, mapError_eq_ok_iff.mp htarget⟩
  · cases h

theorem rowNamed_eq_ok_iff (hs : s.Sound) {path : String} {r : Row} :
    s.rowNamed owner path = .ok r ↔
      r ∈ s.rows ∧ r.owner = owner.id ∧ normalize path = .ok r.path := by
  refine ⟨rowNamed_eq_ok, fun ⟨hr, howner, hpath⟩ => ?_⟩
  refine bind_eq_ok_iff.mpr ⟨r.path, mapError_eq_ok_iff.mpr hpath, ?_⟩
  rw [(rowAt?_eq_some_iff hs).mpr ⟨hr, howner, rfl⟩]
  rfl

/-- The path that drafts under a parent are checked against: below the root
marker all paths are allowed, below a row those that extend its path. -/
theorem carries_of_parentNamed (hs : s.Sound) {path parentPath : String} {parent : Option Nat}
    {child : String} (h : s.parentNamed owner path = .ok (parent, parentPath))
    (hchild : (isRoot parentPath || Node.isChildPath parentPath child) = true) :
    s.Carries owner.id parent child := by
  intro p hp
  subst hp
  rw [Store.parentNamed] at h
  split at h
  · cases h
  · obtain ⟨r, hr, heq⟩ := map_eq_ok_iff.mp h
    cases heq
    obtain ⟨hmem, howner, -⟩ := rowNamed_eq_ok hr
    have hroot := (hs.canonical r hmem).2
    rw [hroot, Bool.false_or, isChildPath_iff hroot] at hchild
    exact ⟨r, hmem, rfl, howner, hchild⟩

theorem le_of_parentNamed (hs : s.Sound) {path parentPath : String} {parent : Option Nat}
    (h : s.parentNamed owner path = .ok (parent, parentPath)) :
    ∀ g, parent = some g → g ≤ s.lastRow := by
  rintro g rfl
  rw [Store.parentNamed] at h
  split at h
  · cases h
  · obtain ⟨r, hr, heq⟩ := map_eq_ok_iff.mp h
    cases heq
    exact hs.fresh r (rowNamed_eq_ok hr).1

/-- A parent that is still there is still found. -/
theorem parentNamed_of_kept {s' : Store} (hs' : s'.Sound) {path parentPath : String}
    {parent : Option Nat} (h : s.parentNamed owner path = .ok (parent, parentPath))
    (hkept : ∀ r ∈ s.rows, parent = some r.id → r ∈ s'.rows) :
    s'.parentNamed owner path = .ok (parent, parentPath) := by
  rw [Store.parentNamed] at h ⊢
  split at h
  · rename_i hroot
    rw [if_pos hroot]
    exact h
  · rename_i hroot
    rw [if_neg hroot]
    obtain ⟨r, hr, heq⟩ := map_eq_ok_iff.mp h
    cases heq
    obtain ⟨hrow, howner, hpath⟩ := rowNamed_eq_ok hr
    exact map_eq_ok_iff.mpr
      ⟨r, (rowNamed_eq_ok_iff hs').mpr ⟨hkept r hrow rfl, howner, hpath⟩, rfl⟩

theorem draftsUnder_eq_ok {parentPath : String} {nodes : List Node} {ds : List Draft}
    (h : draftsUnder parentPath nodes = .ok ds) : ∀ d ∈ ds,
      d.Sound ∧ (isRoot parentPath || Node.isChildPath parentPath d.path) = true := by
  induction nodes generalizing ds with
  | nil =>
      cases h
      simp
  | cons n rest ih =>
      rw [draftsUnder] at h
      obtain ⟨own, hown, h⟩ := bind_eq_ok_iff.mp h
      split at h
      · cases h
      · rename_i hnone
        obtain ⟨more, hmore, h⟩ := bind_eq_ok_iff.mp h
        cases h
        intro d hd
        rcases List.mem_append.mp hd with hd | hd
        · refine ⟨sound_of_drafts hown d hd, ?_⟩
          simpa only [Bool.not_eq_true', Bool.not_eq_false] using
            List.find?_eq_none.mp hnone d hd
        · exact ih hmore d hd

/-- Drafts checked against a parent go under it. -/
theorem sound_of_draftsUnder (hs : s.Sound) {path parentPath : String} {parent : Option Nat}
    {nodes : List Node} {ds : List Draft}
    (hparent : s.parentNamed owner path = .ok (parent, parentPath))
    (h : draftsUnder parentPath nodes = .ok ds) :
    ∀ d ∈ ds, d.Sound ∧ s.Carries owner.id parent d.path := by
  intro d hd
  obtain ⟨hsound, hchild⟩ := draftsUnder_eq_ok h d hd
  exact ⟨hsound, carries_of_parentNamed hs hparent hchild⟩

/-! ## Plans -/

/-- Whether the edits of a change name rows as they are. -/
def Change.Planned (owner : Nat) (s : Store) : Change → Prop
  | .edits es | .unit es => ∀ e ∈ es, e.Planned owner s
  | .removal _ | .clear => True

theorem planStore_planned {nodes : List Node} {change : Change}
    (h : planStore nodes = .ok change) : change.Planned owner.id s := by
  obtain ⟨ds, hds, rfl⟩ := map_eq_ok_iff.mp h
  intro e he
  obtain ⟨d, hd, rfl⟩ := List.mem_map.mp he
  refine ⟨sound_of_draftsOfAll hds d hd, fun p hp => ?_⟩
  cases hp

theorem planAdd_planned (hs : s.Sound) {parent : String} {nodes : List Node} {change : Change}
    (h : planAdd s owner parent nodes = .ok change) : change.Planned owner.id s := by
  obtain ⟨⟨id, path⟩, hparent, h⟩ := bind_eq_ok_iff.mp h
  obtain ⟨ds, hds, h⟩ := bind_eq_ok_iff.mp h
  cases h
  intro e he
  obtain ⟨d, hd, rfl⟩ := List.mem_map.mp he
  exact sound_of_draftsUnder hs hparent hds d hd

/-- A merge of leaves updates the row at a path, if it does anything. -/
theorem eq_update_of_mem_mergeEdits {owner : Nat} {path : String} {leaves : Leaves}
    {es : List Edit} (h : mergeEdits s owner path leaves = .ok es) {e : Edit} (he : e ∈ es) :
    ∃ r ∈ s.rows, r.owner = owner ∧ normalize path = .ok r.path
      ∧ ∃ old, Leaves.parse r.attributes = some old
        ∧ e = .update r.id r.path r.attributes (Leaves.text (Keyed.insertAll old leaves)) := by
  rw [mergeEdits] at h
  split at h
  · cases h
    cases he
  · rename_i r hr
    obtain ⟨target, htarget, hrow⟩ := Option.bind_eq_some_iff.mp hr
    obtain ⟨hmem, howner, rfl⟩ := rowAt?_eq_some hrow
    split at h
    · cases h
    · rename_i old hold
      cases h
      split at he
      · cases he
      · exact ⟨r, hmem, howner, toOption_eq_some_iff.mp htarget, old, hold,
          List.mem_singleton.mp he⟩

theorem batchEdits_cons_eq_ok_iff {owner : Nat} {update : String × Leaves}
    {rest : List (String × Leaves)} {es : List Edit} :
    batchEdits s owner (update :: rest) = .ok es ↔
      ∃ own more, mergeEdits s owner update.1 update.2 = .ok own
        ∧ batchEdits s owner rest = .ok more ∧ es = own ++ more := by
  obtain ⟨path, leaves⟩ := update
  rw [batchEdits, bind_eq_ok_iff]
  constructor
  · rintro ⟨own, hown, h⟩
    obtain ⟨more, hmore, h⟩ := bind_eq_ok_iff.mp h
    cases h
    exact ⟨own, more, hown, hmore, rfl⟩
  · rintro ⟨own, more, hown, hmore, rfl⟩
    exact ⟨own, hown, bind_eq_ok_iff.mpr ⟨more, hmore, rfl⟩⟩

/-- Each edit of a batch comes from one of its updates. -/
theorem mem_batchEdits {owner : Nat} {updates : List (String × Leaves)} {es : List Edit}
    (h : batchEdits s owner updates = .ok es) {e : Edit} (he : e ∈ es) :
    ∃ u ∈ updates, ∃ own, mergeEdits s owner u.1 u.2 = .ok own ∧ e ∈ own := by
  induction updates generalizing es with
  | nil =>
      cases h
      cases he
  | cons update rest ih =>
      obtain ⟨own, more, hown, hmore, rfl⟩ := batchEdits_cons_eq_ok_iff.mp h
      rcases List.mem_append.mp he with he | he
      · exact ⟨update, List.mem_cons_self, own, hown, he⟩
      · obtain ⟨u, hu, hedit⟩ := ih hmore he
        exact ⟨u, List.mem_cons_of_mem _ hu, hedit⟩

theorem batchEdits_planned {owner : Nat} {updates : List (String × Leaves)} {es : List Edit}
    (h : batchEdits s owner updates = .ok es) : ∀ e ∈ es, e.Planned owner s := by
  intro e he
  obtain ⟨u, -, own, hown, he⟩ := mem_batchEdits h he
  obtain ⟨r, hr, howner, -, old, -, rfl⟩ := eq_update_of_mem_mergeEdits hown he
  exact ⟨r, hr, howner, rfl, rfl, rfl⟩

theorem updateEdits_cons_of_stored {owner : Nat} {d : Draft} {rest : List Draft}
    {es : List Edit} {r : Row} (hr : s.rowAt? owner d.path = some r) :
    updateEdits s owner (d :: rest) = .ok es ↔
      ∃ own more, reconcile s.rows r d = .ok own ∧ updateEdits s owner rest = .ok more
        ∧ es = own ++ more := by
  rw [updateEdits, hr, bind_eq_ok_iff]
  constructor
  · rintro ⟨own, hown, h⟩
    obtain ⟨more, hmore, h⟩ := bind_eq_ok_iff.mp h
    cases h
    exact ⟨own, more, hown, hmore, rfl⟩
  · rintro ⟨own, more, hown, hmore, rfl⟩
    exact ⟨own, hown, bind_eq_ok_iff.mpr ⟨more, hmore, rfl⟩⟩

theorem updateEdits_cons_of_new {owner : Nat} {d : Draft} {rest : List Draft}
    (hr : s.rowAt? owner d.path = none) :
    updateEdits s owner (d :: rest) = updateEdits s owner rest := by
  rw [updateEdits, hr]
  show (updateEdits s owner rest >>= fun more => Except.ok ([] ++ more)) = _
  cases updateEdits s owner rest with
  | error e => rfl
  | ok more => rfl

/-- Each edit of an update of trees comes from the reconciliation of one of
the stored trees. -/
theorem mem_updateEdits {owner : Nat} {ds : List Draft} {es : List Edit}
    (h : updateEdits s owner ds = .ok es) {e : Edit} (he : e ∈ es) :
    ∃ d ∈ ds, ∃ r, s.rowAt? owner d.path = some r
      ∧ ∃ own, reconcile s.rows r d = .ok own ∧ e ∈ own := by
  induction ds generalizing es with
  | nil =>
      cases h
      cases he
  | cons d rest ih =>
      cases hr : s.rowAt? owner d.path with
      | none =>
          rw [updateEdits_cons_of_new hr] at h
          obtain ⟨c, hc, hedit⟩ := ih h he
          exact ⟨c, List.mem_cons_of_mem _ hc, hedit⟩
      | some r =>
          obtain ⟨own, more, hown, hmore, rfl⟩ := (updateEdits_cons_of_stored hr).mp h
          rcases List.mem_append.mp he with he | he
          · exact ⟨d, List.mem_cons_self, r, hr, own, hown, he⟩
          · obtain ⟨c, hc, hedit⟩ := ih hmore he
            exact ⟨c, List.mem_cons_of_mem _ hc, hedit⟩

theorem updateEdits_planned (hs : s.Sound) {owner : Nat} {ds : List Draft} {es : List Edit}
    (hds : ∀ d ∈ ds, d.Sound) (h : updateEdits s owner ds = .ok es) :
    ∀ e ∈ es, e.Planned owner s := by
  intro e he
  obtain ⟨d, hd, r, hr, own, hown, he⟩ := mem_updateEdits h he
  obtain ⟨hmem, howner, hpath⟩ := rowAt?_eq_some hr
  exact (reconcile_planned hs d hmem howner hpath (hds d hd) hown e he).1

/-- The rows of an owner under a parent whose paths start like those of the
elements of a list. -/
def Store.listRows (s : Store) (owner : Nat) (parent : Option Nat) (address : String) :
    List Row :=
  (s.childRows owner parent).filter fun r => r.path.startsWith (address ++ "[")

theorem Store.mem_childRows {owner : Nat} {parent : Option Nat} {q : Row} :
    q ∈ s.childRows owner parent ↔ q ∈ s.rows ∧ q.owner = owner ∧ q.parent = parent := by
  simp [childRows]

theorem Store.mem_listRows {owner : Nat} {parent : Option Nat} {address : String} {q : Row} :
    q ∈ s.listRows owner parent address ↔ q ∈ s.rows ∧ q.owner = owner ∧ q.parent = parent
      ∧ q.path.startsWith (address ++ "[") = true := by
  rw [listRows, List.mem_filter, mem_childRows, and_assoc, and_assoc]

theorem planReplaceList_cons_eq_ok_iff {parent : String} {first : Node} {rest : List Node}
    {change : Change} :
    planReplaceList s owner parent (first :: rest) = .ok change ↔
      ∃ id path ds address es, s.parentNamed owner parent = .ok (id, path)
        ∧ draftsUnder path (first :: rest) = .ok ds ∧ listAddress first.path = .ok address
        ∧ (∀ d ∈ ds, d.path.startsWith (address ++ "[") = true)
        ∧ reconcileChildren s.rows id (s.listRows owner.id id address) ds = .ok es
        ∧ change = .unit es := by
  rw [planReplaceList, bind_eq_ok_iff]
  constructor
  · rintro ⟨⟨id, path⟩, hparent, h⟩
    obtain ⟨ds, hds, h⟩ := bind_eq_ok_iff.mp h
    obtain ⟨address, haddress, h⟩ := bind_eq_ok_iff.mp h
    simp only at h
    split at h
    · cases h
    · rename_i hnone
      obtain ⟨es, hes, h⟩ := bind_eq_ok_iff.mp h
      cases h
      exact ⟨id, path, ds, address, es, hparent, hds, haddress,
        by simpa using List.find?_eq_none.mp hnone, hes, rfl⟩
  · rintro ⟨id, path, ds, address, es, hparent, hds, haddress, hlead, hes, rfl⟩
    refine ⟨(id, path), hparent, bind_eq_ok_iff.mpr ⟨ds, hds, bind_eq_ok_iff.mpr
      ⟨address, haddress, ?_⟩⟩⟩
    have hnone : (ds.find? fun d => !d.path.startsWith (address ++ "[")) = none :=
      List.find?_eq_none.mpr fun d hd => by simp [hlead d hd]
    simp only [hnone]
    exact bind_eq_ok_iff.mpr ⟨es, hes, rfl⟩

/-- A replacement of a list reconciles rows of the owner under one parent
with drafts that may go there. -/
theorem planReplaceList_eq_ok (hs : s.Sound) {parent : String} {elements : List Node}
    {change : Change} (h : planReplaceList s owner parent elements = .ok change) :
    ∃ id stored ds es, (∀ q ∈ stored, q ∈ s.rows ∧ q.owner = owner.id ∧ q.parent = id)
      ∧ (∀ d ∈ ds, d.Sound ∧ s.Carries owner.id id d.path)
      ∧ reconcileChildren s.rows id stored ds = .ok es ∧ change = .unit es := by
  cases elements with
  | nil => cases h
  | cons first rest =>
      obtain ⟨id, path, ds, address, es, hparent, hds, -, -, hes, rfl⟩ :=
        planReplaceList_cons_eq_ok_iff.mp h
      refine ⟨id, _, ds, es, fun q hq => ?_, sound_of_draftsUnder hs hparent hds, hes, rfl⟩
      obtain ⟨hrow, howner, hqparent, -⟩ := Store.mem_listRows.mp hq
      exact ⟨hrow, howner, hqparent⟩

theorem removalOf_eq_ok {path : String} {rows : List Row} {change : Change}
    (h : removalOf owner path rows = .ok change) : change = .removal (rows.map Row.id) := by
  rw [removalOf] at h
  split at h
  · cases h
  · exact (Except.ok.inj h).symm

theorem removalOf_planned {path : String} {rows : List Row} {change : Change}
    (h : removalOf owner path rows = .ok change) : change.Planned owner.id s := by
  rw [removalOf_eq_ok h]
  trivial

/-- All edits of a plan name rows as they are. -/
theorem plan_planned (hs : s.Sound) {w : Write} {change : Change}
    (h : w.plan s owner = .ok change) : change.Planned owner.id s := by
  cases w with
  | store nodes => exact planStore_planned h
  | add parent nodes => exact planAdd_planned hs h
  | addList parent elements =>
      rw [Write.plan, planAddList] at h
      split at h
      · cases h
      · exact planAdd_planned hs h
  | updateLeaves path leaves =>
      obtain ⟨target, -, h⟩ := bind_eq_ok_iff.mp h
      obtain ⟨es, hes, h⟩ := bind_eq_ok_iff.mp h
      cases h
      exact batchEdits_planned hes
  | updateBatch updates =>
      obtain ⟨es, hes, rfl⟩ := map_eq_ok_iff.mp h
      exact batchEdits_planned hes
  | updateTrees nodes =>
      obtain ⟨ds, hds, h⟩ := bind_eq_ok_iff.mp h
      obtain ⟨es, hes, h⟩ := bind_eq_ok_iff.mp h
      cases h
      exact updateEdits_planned hs (sound_of_draftsOfAll hds) hes
  | replaceList parent elements =>
      obtain ⟨id, stored, ds, es, hstored, hds, hes, rfl⟩ := planReplaceList_eq_ok hs h
      intro e he
      exact (reconcileChildren_planned hs ds
        (fun q hq => ⟨(hstored q hq).1, (hstored q hq).2.1⟩) hds hes e he).1
  | delete path =>
      rw [Write.plan, planDelete] at h
      split at h
      · cases h
        trivial
      · obtain ⟨target, -, h⟩ := bind_eq_ok_iff.mp h
        exact removalOf_planned h
  | deleteMany paths =>
      rw [Write.plan, planDeleteMany] at h
      split at h
      · cases h
        trivial
      · split at h
        · cases h
          trivial
        · cases h
  | deleteList path =>
      obtain ⟨q, -, h⟩ := bind_eq_ok_iff.mp h
      simp only at h
      split at h
      · cases h
      · exact removalOf_planned h
  | deleteAll =>
      cases h
      trivial

end

/-- A write that succeeds carries out its plan. -/
theorem write_eq_ok {s s' : Store} {access : Access} {owner : Owner} {w : Write}
    {summary : Summary} (h : s.write access owner w = (s', .ok summary)) :
    ∃ change, w.plan s owner = .ok change ∧ change.commit s owner = (s', .ok summary) := by
  rw [Store.write] at h
  split at h
  · cases (Prod.mk.inj h).2
  · rename_i change hplan
    split at h
    · cases (Prod.mk.inj h).2
    · exact ⟨change, hplan, h⟩

end DataTree
