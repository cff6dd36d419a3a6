import DataTree.Proofs.Store.Counting
import DataTree.Proofs.Store.Parts
import DataTree.Proofs.Store.Share

/-!
# Lists replaced

The rows of a list hang side by side under one row, or are roots, beside rows
that do not belong to it.  A replacement of the list reconciles the rows of the
list with the new elements in one unit, so afterwards the rows of the list are
those of the elements, nothing else has been touched, and the same replacement
finds nothing left to do.

## Main definitions

* `Store.OutsideList` — rows that the replacement of a list leaves alone.
* `ListReplaced` — what it leaves of all rows.

## Main results

* `replaceList_of_settled` — a list that is as asked for needs no edit.
* `listReplaced_of_write` — what a replacement that succeeds leaves.
-/

namespace DataTree

open DataTree.Path

/-- Whether a row is neither a row of a list nor below one. -/
def Store.OutsideList (s : Store) (owner : Nat) (parent : Option Nat) (address : String)
    (r : Row) : Prop :=
  ∀ q ∈ s.listRows owner parent address, ¬AtOrBelow s.rows q r

/-- What the replacement of a list under a parent leaves of the rows of a
store. -/
structure ListReplaced (owner : Nat) (parent : Option Nat) (address : String)
    (elements : List Node) (s s' : Store) : Prop where
  /-- No two elements have one canonical path. -/
  distinct : (elements.map fun n => canonicalPath n.path).Nodup
  /-- Each element has a row in the list and reads as given, with canonical
  paths; a row that was in the list at its path is still that row. -/
  stored : ∀ n ∈ elements, ∃ q' ∈ s'.listRows owner parent address,
    q'.path = canonicalPath n.path ∧ s'.node .all q' = .ok n.canonical
      ∧ ∀ q ∈ s.listRows owner parent address, q.path = q'.path → q.id = q'.id
  /-- The list has no other rows. -/
  only : ∀ q' ∈ s'.listRows owner parent address, ∃ n ∈ elements, q'.path = canonicalPath n.path
  /-- Rows outside the list are as they were. -/
  outside : ∀ r ∈ s.rows, s.OutsideList owner parent address r → r ∈ s'.rows
  /-- What was not there before is in the list. -/
  inside : ∀ r' ∈ s'.rows, r' ∈ s.rows
    ∨ ∃ q' ∈ s'.listRows owner parent address, AtOrBelow s'.rows q' r'
  /-- No other table is touched. -/
  tables : s' = { s with rows := s'.rows, lastRow := s'.lastRow }

section

variable {s s' : Store} {owner : Nat} {parent : Option Nat} {address : String}

/-- No two rows of a list have one path. -/
theorem distinct_listRows (hs : s.Sound) : Distinct (s.listRows owner parent address) := by
  intro q hq r hr hpath
  obtain ⟨hq, hqowner, -⟩ := Store.mem_listRows.mp hq
  obtain ⟨hr, hrowner, -⟩ := Store.mem_listRows.mp hr
  exact hs.eq_of_path hq hr (hqowner.trans hrowner.symm) hpath

/-- The row that a list hangs under is not in the list. -/
theorem outsideList_parent (hs : s.Sound) {r : Row} (hr : parent = some r.id) :
    s.OutsideList owner parent address r := by
  intro q hq hbelow
  exact hbelow.not_parent hs.ordered ((Store.mem_listRows.mp hq).2.2.1.trans hr)

/-! ## The rows of a list after its replacement -/

variable {ds : List Draft} {es : List Edit}

/-- Each draft in the list has a settled row there, and there are no other
rows. -/
theorem allSettled_listRows
    (h : Shares owner s es parent (s.listRows owner parent address) ds es)
    (hplan : Enacted owner s es s')
    (hlist : ∀ d ∈ ds, d.path.startsWith (address ++ "[") = true) :
    AllSettled s'.rows (s'.listRows owner parent address) ds where
  nodup := h.nodup hplan
  row := by
    intro d hd
    obtain ⟨q', hq', howner, hparent, hpath, hsettled⟩ := h.exists_row_of_draft hplan hd
      fun q own hshare q' hq' hid => settled_of_share hplan hshare.sound hshare hq' hid
    exact ⟨q', Store.mem_listRows.mpr ⟨hq', howner, hparent, hpath ▸ hlist d hd⟩, hpath, hsettled⟩
  draft := by
    intro q' hq'
    obtain ⟨hrow, howner, hparent, hlead⟩ := Store.mem_listRows.mp hq'
    refine h.exists_draft hplan hrow hparent fun q hq heq => ?_
    rw [heq] at howner hparent hlead
    exact Store.mem_listRows.mpr ⟨hq, howner, hparent, hlead⟩

/-- The plan is confined to the list. -/
theorem confined_listRows (h : Shares owner s es parent (s.listRows owner parent address) ds es)
    (hs : s.Sound) :
    Confined s (· ∈ s.listRows owner parent address) parent (· ∈ ds) es :=
  fun e he => (h.replaces.planned hs h.plan e he).2

/-- Rows with the path of a row that was in the list are that row. -/
theorem id_eq_of_path (h : Shares owner s es parent (s.listRows owner parent address) ds es)
    (hplan : Enacted owner s es s') {d : Draft} (hd : d ∈ ds) {q q' : Row}
    (hq : q ∈ s.listRows owner parent address) (hpath : q.path = d.path) (hq' : q' ∈ s'.rows)
    (howner : q'.owner = owner) (hpath' : q'.path = d.path) : q.id = q'.id := by
  obtain ⟨own, hshare⟩ := h.member_of_path hplan hq hd hpath.symm
  obtain ⟨x, hx, heq⟩ := hshare.exists_row hplan
  have hsame : x = q' := hplan.traces.sound.eq_of_path hx hq'
    (by rw [heq, howner]; exact hshare.owner) (by rw [heq, hpath']; exact hpath)
  rw [← hsame, heq]

/-- What a plan for a list leaves of the rows. -/
theorem listReplaced_of_enacted {elements : List Node}
    (h : Shares owner s es parent (s.listRows owner parent address) ds es)
    (hplan : Enacted owner s es s') (hdrafted : List.Forall₂ Node.Drafted elements ds)
    (hexact : ∀ n ∈ elements, n.Exact)
    (hlist : ∀ d ∈ ds, d.path.startsWith (address ++ "[") = true)
    (htables : s' = { s with rows := s'.rows, lastRow := s'.lastRow }) :
    ListReplaced owner parent address elements s s' := by
  have hsettled := allSettled_listRows h hplan hlist
  have hconfined := confined_listRows h hplan.before
  refine
    { distinct := map_canonicalPath_of_drafted hdrafted ▸ hsettled.nodup
      stored := ?_, only := ?_
      outside := fun r hr hout => hplan.mem_of_outside hconfined hr hout
      inside := ?_, tables := htables }
  · intro n hn
    obtain ⟨d, hd, hnd⟩ := exists_drafted hdrafted hn
    obtain ⟨q', hq', hpath, hq'd⟩ := hsettled.row d hd
    obtain ⟨hrow, howner, -, -⟩ := Store.mem_listRows.mp hq'
    obtain ⟨hnode, hdexact⟩ := node_of_ofNode n hnd.1 (hexact n hn) hnd.2
    refine ⟨q', hq', hpath.trans hnd.path.symm, ?_, fun q hq hqpath => ?_⟩
    · rw [← hnode]
      exact node_of_settled hplan.traces.sound hdexact hrow hpath hq'd
    · exact id_eq_of_path h hplan hd hq (hqpath.trans hpath) hrow howner hpath
  · intro q' hq'
    obtain ⟨d, hd, hpath⟩ := hsettled.draft q' hq'
    obtain ⟨n, hn, hnd⟩ := exists_listed hdrafted hd
    exact ⟨n, hn, hpath.trans hnd.path.symm⟩
  · intro r' hr'
    rcases hplan.mem_or_below hconfined hr' with hold | ⟨t', ht', htop⟩
    · exact .inl hold
    · refine .inr ⟨t', Store.mem_listRows.mpr ⟨ht'.mem_top, ?_⟩, ht'⟩
      rcases htop with ⟨t, ht, hid⟩ | ⟨howner, hparent, d, hd, hpath⟩
      · obtain ⟨hrow, hlisted⟩ := Store.mem_listRows.mp ht
        rw [hplan.traces.eq_of_id hplan.before hrow ht'.mem_top hid]
        exact hlisted
      · exact ⟨howner, hparent, hpath ▸ hlist d hd⟩

end

/-! ## Replacements that succeed -/

section

variable {s s' : Store} {owner : Owner} {parent address : String} {elements : List Node}
  {access : Access} {summary : Summary}

/-- Edits applied as a unit were all done, if that succeeds. -/
theorem enacted_of_unit {es : List Edit} (hs : s.Sound) (hplanned : ∀ e ∈ es, e.Planned owner.id s)
    (hexact : ∀ parent d, Edit.insert parent d ∈ es → d.Exact)
    (h : Change.commit s owner (.unit es) = (s', .ok summary)) : Enacted owner.id s es s' := by
  obtain ⟨hunfaulted, hnone, rfl, -⟩ := inTurn_of_applyAll (applyAll_of_unit h)
  exact enacted_of_inTurn hs hplanned hexact hunfaulted hnone

/-- Elements of one list are not root markers, so they stand for themselves. -/
theorem listed_of_elements (hlist : ∀ n ∈ elements, listAddress n.path = .ok address) :
    Node.listed elements = elements := by
  induction elements with
  | nil => rfl
  | cons n rest ih =>
      obtain ⟨q, hq, -⟩ := bind_eq_ok_iff.mp (hlist n List.mem_cons_self)
      have hroot := isRoot_of_parse (mapError_eq_ok_iff.mp hq)
      have hrest := ih fun m hm => hlist m (List.mem_cons_of_mem n hm)
      rw [Node.listed, List.flatMap_cons, hroot]
      exact congrArg (n :: ·) hrest

/-- The plan behind a replacement of a list that succeeds. -/
theorem exists_plan_of_replaceList (hlist : ∀ n ∈ elements, listAddress n.path = .ok address)
    (h : s.write access owner (.replaceList parent elements) = (s', .ok summary)) :
    ∃ id path ds es, s.parentNamed owner parent = .ok (id, path)
      ∧ draftsUnder path elements = .ok ds
      ∧ (∀ d ∈ ds, d.path.startsWith (address ++ "[") = true)
      ∧ reconcileChildren s.rows id (s.listRows owner.id id address) ds = .ok es
      ∧ Change.commit s owner (.unit es) = (s', .ok summary) := by
  obtain ⟨change, hplan, hcommit⟩ := write_eq_ok h
  cases elements with
  | nil => cases hplan
  | cons first rest =>
      obtain ⟨id, path, ds, address', es, hparent, hds, haddress, hlead, hes, rfl⟩ :=
        planReplaceList_cons_eq_ok_iff.mp hplan
      cases (hlist first List.mem_cons_self).symm.trans haddress
      exact ⟨id, path, ds, es, hparent, hds, hlead, hes, hcommit⟩

/-- The replacement of a list by what it has does nothing. -/
theorem replaceList_of_settled {id : Option Nat} {path : String} {ds : List Draft} (hs : s.Sound)
    (hlist : ∀ n ∈ elements, listAddress n.path = .ok address) (hne : elements ≠ [])
    (hparent : s.parentNamed owner parent = .ok (id, path))
    (hds : draftsUnder path elements = .ok ds)
    (hlead : ∀ d ∈ ds, d.path.startsWith (address ++ "[") = true)
    (h : AllSettled s.rows (s.listRows owner.id id address) ds) (access : Access) :
    s.write access owner (.replaceList parent elements) = (s, .ok {}) := by
  obtain ⟨first, rest, rfl⟩ := List.exists_cons_of_ne_nil hne
  have hplan : (Write.replaceList parent (first :: rest)).plan s owner = .ok (.unit []) :=
    planReplaceList_cons_eq_ok_iff.mpr ⟨id, path, ds, address, [], hparent, hds,
      hlist first List.mem_cons_self, hlead, h.reconcileChildren (distinct_listRows hs), rfl⟩
  rw [Store.write, hplan]
  simp only [Change.isWritten, List.isEmpty_nil, Bool.not_true, Bool.and_false]
  rfl

/-- A replacement that succeeds replaces the list, and the same replacement once
more does nothing. -/
theorem listReplaced_of_write (hs : s.Sound) (hexact : ∀ n ∈ elements, n.Exact)
    (hlist : ∀ n ∈ elements, listAddress n.path = .ok address)
    (h : s.write access owner (.replaceList parent elements) = (s', .ok summary)) :
    s'.Sound ∧ (∃ id path, s.parentNamed owner parent = .ok (id, path)
      ∧ ListReplaced owner.id id address elements s s')
    ∧ s'.write access owner (.replaceList parent elements) = (s', .ok {}) := by
  obtain ⟨id, path, ds, es, hparent, hds, hlead, hes, hcommit⟩ :=
    exists_plan_of_replaceList hlist h
  have hdrafted := forall₂_of_draftsUnder hds
  rw [listed_of_elements hlist] at hdrafted
  have hreplaces : Replaces owner.id s id (s.listRows owner.id id address) ds :=
    ⟨fun q hq => ⟨(Store.mem_listRows.mp hq).1, (Store.mem_listRows.mp hq).2.1,
      (Store.mem_listRows.mp hq).2.2.1⟩, sound_of_draftsUnder hs hparent hds⟩
  have hshares := hreplaces.shares hs (le_of_parentNamed hs hparent) hes
  have hplan : Enacted owner.id s es s' := by
    refine enacted_of_unit hs (fun e he => (hreplaces.planned hs hes e he).1)
      (fun parent d hd => ?_) hcommit
    obtain ⟨c, hc, hwithin⟩ := from_of_reconcileChildren ds hes _ hd
    exact ((map_node_of_drafted hdrafted hexact).2 c hc).within hwithin
  have htables : s' = { s with rows := s'.rows, lastRow := s'.lastRow } := by
    obtain ⟨-, -, rfl, -⟩ := inTurn_of_applyAll (applyAll_of_unit hcommit)
    exact inTurn_store_eq owner.id (inOrder es) s
  have hreplaced := listReplaced_of_enacted hshares hplan hdrafted hexact hlead htables
  refine ⟨hplan.traces.sound, ⟨id, path, hparent, hreplaced⟩,
    replaceList_of_settled hplan.traces.sound hlist ?_ ?_ hds hlead
      (allSettled_listRows hshares hplan hlead) access⟩
  · rintro rfl
    obtain ⟨change, hnone, -⟩ := write_eq_ok h
    cases hnone
  · refine parentNamed_of_kept hplan.traces.sound hparent fun r hr hid => ?_
    exact hreplaced.outside r hr (outsideList_parent hs hid)

end

end DataTree
