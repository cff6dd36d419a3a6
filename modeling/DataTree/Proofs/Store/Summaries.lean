import DataTree.Proofs.Store.Across
import DataTree.Proofs.Store.Counting
import DataTree.Proofs.Store.Isolation

/-!
# What summaries tell

Callers take an empty summary as proof that nothing was written.  So it is:
whatever a write is and however it is carried out, if it succeeds its summary
tells how many ids are new, how many rows have other leaves, and whether any
row is gone, and it is empty exactly if the rows are as they were.

## Main results

* `tells_of_write` — the summary of a write.
* `tells_of_clearOwners` — the summaries of a removal for many owners.
* `summaries_tell` — both, after any operations.
-/

namespace DataTree

/-- A write that succeeds has counted how it changed the rows. -/
theorem tells_of_write {s s' : Store} {access : Access} {owner : Owner} {w : Write}
    {summary : Summary} (hs : s.Sound) (hexact : ∀ leaves ∈ w.merges, leaves.Exact)
    (h : s.write access owner w = (s', .ok summary)) : summary.Tells s.rows s'.rows := by
  obtain ⟨change, hplan, hcommit⟩ := write_eq_ok h
  have hplanned := plan_planned hs hplan
  have hchanges := changes_of_plan hs hexact hplan
  cases change with
  | edits es => exact tells_of_applyAll hs hplanned hchanges (applyAll_of_edits hcommit)
  | unit es => exact tells_of_applyAll hs hplanned hchanges (applyAll_of_unit hcommit)
  | removal ids =>
      obtain ⟨rfl, rfl⟩ := Change.remove_eq_ok hcommit
      exact tells_survivors hs.ids _
  | clear =>
      obtain ⟨rfl, rfl⟩ := Change.remove_eq_ok hcommit
      exact tells_survivors hs.ids _

/-! ## Many owners at once -/

section

variable {s : Store}

/-- Emptying an owner takes all its rows along. -/
theorem rowsOf_cleared_self (hs : s.Sound) (owner : Nat) :
    (s.removeRows fun r => r.owner = owner && r.parent.isNone).1.rowsOf owner = [] := by
  apply List.eq_nil_iff_forall_not_mem.mpr
  intro r hr
  obtain ⟨hr, howner⟩ := Store.mem_rowsOf.mp hr
  obtain ⟨hr, hstays⟩ := (Store.mem_survivors_iff hs.ordered).mp hr
  obtain ⟨top, -, hroot, htop, hbelow⟩ := hs.exists_root hr
  exact hstays ⟨top, hbelow, by simp [hroot, htop, howner]⟩

/-- It is counted unless the owner had no rows. -/
theorem tells_cleared (hs : s.Sound) (owner : Nat) :
    Summary.Tells { deleted := (s.removeRows fun r => r.owner = owner && r.parent.isNone).2 }
      (s.rowsOf owner) [] := by
  have hnone : (s.removeRows fun r => r.owner = owner && r.parent.isNone).2 = 0 ↔
      s.rowsOf owner = [] := by
    show Store.directRemovals _ [] s.rows = 0 ↔ _
    rw [directRemovals_eq_zero_iff, List.eq_nil_iff_forall_not_mem]
    constructor
    · intro hroots r hr
      obtain ⟨hr, howner⟩ := Store.mem_rowsOf.mp hr
      obtain ⟨top, htop, hroot, hsame, -⟩ := hs.exists_root hr
      have hfalse := hroots top htop
      simp [hroot, hsame, howner] at hfalse
    · intro hempty r hr
      by_cases howner : r.owner = owner
      · exact absurd (Store.mem_rowsOf.mpr ⟨hr, howner⟩) (hempty r)
      · simp [howner]
  apply Summary.Tells.of_subset (hs.ids.filter _) (List.nil_subset _)
  · rw [hnone, List.eq_nil_iff_forall_not_mem]
    constructor
    · exact fun hempty r hr => absurd hr (hempty r)
    · intro hall r hr
      obtain ⟨r', hr', -⟩ := hall r hr
      cases hr'
  · intro hzero
    exact (hnone.mp hzero).symm

theorem sublist_clearOwners (s : Store) (owners : List OwnerRow) :
    (s.clearOwners owners).1.rows.Sublist s.rows := by
  induction owners generalizing s with
  | nil => exact .refl _
  | cons o rest ih => exact (ih _).trans (Store.survivors_sublist _ [] s.rows)

/-- Owners are emptied one after the other, each with a summary that tells what
happened to its rows. -/
theorem tells_of_clearOwners (hs : s.Sound) {owners : List OwnerRow}
    (hids : owners.Pairwise fun o p => o.id ≠ p.id) {e : String × Summary}
    (he : e ∈ (s.clearOwners owners).2) : ∃ o ∈ owners, o.name = e.1
      ∧ e.2.Tells (s.rowsOf o.id) ((s.clearOwners owners).1.rowsOf o.id) := by
  induction owners generalizing s with
  | nil => cases he
  | cons o rest ih =>
      obtain ⟨ho, hrest⟩ := List.pairwise_cons.mp hids
      have hcleared := hs.removeRows fun r => r.owner = o.id && r.parent.isNone
      rcases Keyed.mem_insert he with rfl | he
      · refine ⟨o, List.mem_cons_self, rfl, ?_⟩
        -- its rows are gone by now, and the owners that follow have other ids
        have hlater := rowsOf_clearOwners hcleared ho
        rw [rowsOf_cleared_self hs] at hlater
        show Summary.Tells _ _ (Store.rowsOf (Store.clearOwners _ rest).1 o.id)
        rw [hlater]
        exact tells_cleared hs o.id
      · obtain ⟨p, hp, hname, htells⟩ := ih hcleared hrest he
        rw [rowsOf_cleared hs (ho p hp).symm] at htells
        exact ⟨p, List.mem_cons_of_mem o hp, hname, htells⟩

theorem exists_summary_of_clearOwners {owners : List OwnerRow} {o : OwnerRow} (ho : o ∈ owners) :
    ∃ c, Keyed.find? o.name (s.clearOwners owners).2 = some c := by
  induction owners generalizing s with
  | nil => cases ho
  | cons p rest ih =>
      rw [Store.clearOwners, Keyed.find?_insert]
      by_cases hname : p.name = o.name
      · exact ⟨_, if_pos hname⟩
      · rw [if_neg hname]
        rcases List.mem_cons.mp ho with rfl | ho
        · exact absurd rfl hname
        · exact ih ho

/-- The summaries are all empty exactly if no row went. -/
theorem isEmpty_clearOwners_iff (hs : s.Sound) {owners : List OwnerRow}
    (hids : owners.Pairwise fun o p => o.id ≠ p.id)
    (hnames : ∀ o ∈ owners, ∀ p ∈ owners, o.name = p.name → o = p) :
    (∀ e ∈ (s.clearOwners owners).2, e.2.isEmpty = true) ↔
      (s.clearOwners owners).1.rows = s.rows := by
  constructor
  · intro hempty
    -- every row is kept, whether its owner is one of those emptied or not
    have hall : ∀ r ∈ s.rows, r ∈ (s.clearOwners owners).1.rows := by
      intro r hr
      have hkept : (s.clearOwners owners).1.rowsOf r.owner = s.rowsOf r.owner := by
        by_cases hnamed : ∃ o ∈ owners, r.owner = o.id
        · obtain ⟨o, ho, howner⟩ := hnamed
          obtain ⟨c, hc⟩ := exists_summary_of_clearOwners (s := s) ho
          have hmem := Keyed.mem_of_find? hc
          obtain ⟨p, hp, hname, htells⟩ := tells_of_clearOwners hs hids hmem
          rw [hnames p hp o ho hname] at htells
          rw [howner]
          exact htells.empty.mp (hempty _ hmem)
        · exact rowsOf_clearOwners hs fun o ho howner => hnamed ⟨o, ho, howner⟩
      have hmem := Store.mem_rowsOf.mpr ⟨hr, rfl⟩
      rw [← hkept] at hmem
      exact (Store.mem_rowsOf.mp hmem).1
    exact (sublist_clearOwners s owners).eq_of_length_le (hs.nodup.subperm hall).length_le
  · intro hrows e he
    obtain ⟨o, -, -, htells⟩ := tells_of_clearOwners hs hids he
    apply htells.empty.mpr
    rw [Store.rowsOf, hrows, Store.rowsOf]

end

/-! ## Every write -/

/-- Whatever operations have been run, the summary of every write that succeeds
tells how the rows differ afterwards, as long as the leaves that it merges are
without doubles.  A removal for many owners gives each owner that it finds a
summary that tells how the rows of that owner differ. -/
theorem summaries_tell (history : List Operation) :
    let s := Store.empty.after history
    (∀ access owner w s' summary, (∀ leaves ∈ Write.merges w, leaves.Exact) →
        s.write access owner w = (s', .ok summary) → summary.Tells s.rows s'.rows)
      ∧ ∀ access dataspace names s' summaries,
        s.deleteForOwners access dataspace names = (s', .ok summaries) →
        (∀ e ∈ summaries, ∃ o ∈ s.owners, o.dataspaceId = dataspace.id ∧ o.name ∈ names
          ∧ o.name = e.1 ∧ e.2.Tells (s.rowsOf o.id) (s'.rowsOf o.id))
        ∧ (∀ o ∈ s.owners, o.dataspaceId = dataspace.id → o.name ∈ names →
          ∃ c, Keyed.find? o.name summaries = some c)
        ∧ ((∀ e ∈ summaries, e.2.isEmpty = true) ↔ s'.rows = s.rows) := by
  intro s
  have hs : s.Sound := sound_after history
  refine ⟨fun access owner w s' summary hexact h => tells_of_write hs hexact h, ?_⟩
  intro access dataspace names s' summaries h
  have hids : s.owners.Pairwise fun o p => o.id ≠ p.id :=
    (numbered_after history).ids.imp Nat.ne_of_lt
  rw [Store.deleteForOwners] at h
  generalize howners : s.owners.filter (fun o => o.dataspaceId = dataspace.id
    && names.contains o.name) = owners at h
  have hmem : ∀ o, o ∈ owners ↔ o ∈ s.owners ∧ o.dataspaceId = dataspace.id ∧ o.name ∈ names := by
    simp [← howners]
  have hcleared : s' = (s.clearOwners owners).1 ∧ summaries = (s.clearOwners owners).2 := by
    split at h
    · rename_i hnone
      cases h
      rw [List.isEmpty_iff.mp hnone]
      exact ⟨rfl, rfl⟩
    · rw [Store.guarded] at h
      split at h
      · cases h
      · split at h
        · cases h
        · cases h
          exact ⟨rfl, rfl⟩
  obtain ⟨rfl, rfl⟩ := hcleared
  have howned : owners.Pairwise fun o p => o.id ≠ p.id := howners ▸ hids.filter _
  refine ⟨fun e he => ?_, fun o ho hdataspace hname => ?_, ?_⟩
  · obtain ⟨o, ho, hname, htells⟩ := tells_of_clearOwners hs howned he
    obtain ⟨hrow, hdataspace, hasked⟩ := (hmem o).mp ho
    exact ⟨o, hrow, hdataspace, hasked, hname, htells⟩
  · exact exists_summary_of_clearOwners ((hmem o).mpr ⟨ho, hdataspace, hname⟩)
  · apply isEmpty_clearOwners_iff hs howned
    intro o ho p hp hname
    obtain ⟨ho, hdataspace, -⟩ := (hmem o).mp ho
    obtain ⟨hp, hdataspace', -⟩ := (hmem p).mp hp
    exact (named_after history).eq_of_name ho hp (hdataspace.trans hdataspace'.symm) hname

/-- An update of a tree and of a node in it, and a removal of both, which counts
the tree alone; another owner has nothing to remove. -/
theorem summaries_tell_of_nested_targets :
    let leaf (path : String) : Node := .leafless path
    let inner : Node := .mk "/a/b" [] [("/a/b/c", leaf "/a/b/c")]
    let tree : Node := .mk "/a" [] [(inner.path, inner), ("/a/d", leaf "/a/d")]
    let grown : Node := .mk "/a" [("x", .number (.integer 1))]
      [("/a/d", leaf "/a/d"), ("/a/e", .mk "/a/e" [] [("/a/e/f", leaf "/a/e/f")])]
    let owner : Owner := ⟨1, 1, "d", "o"⟩
    let history : List Operation := [.request .readWrite (.createDataspace "d"),
      .request .readWrite (.createOwner ⟨1, "d"⟩ "o"),
      .request .readWrite (.createOwner ⟨1, "d"⟩ "p"),
      .request .readWrite (.write owner (.store [tree]))]
    let s := Store.empty.after history
    let grow : Write := .updateTrees [grown, .mk "/a/d" [("y", .bool true)] []]
    let merge : Write := .updateLeaves "/a" [("x", .string "1")]
    let remove : Write := .deleteMany ["/a", "/a/d"]
    let after (w : Write) := (s.write .readWrite owner w).1.rows
    let emptied := s.deleteForOwners .readWrite ⟨1, "d"⟩ ["p", "o", "q"]
    (s.write .readWrite owner grow).2 = .ok ⟨2, 2, 1⟩ ∧ Summary.Tells ⟨2, 2, 1⟩ s.rows (after grow)
      ∧ (s.write .readWrite owner merge).2 = .ok ⟨1, 0, 0⟩
      ∧ Summary.Tells ⟨1, 0, 0⟩ s.rows (after merge)
      ∧ (s.write .readWrite owner remove).2 = .ok ⟨0, 0, 1⟩
      ∧ Summary.Tells ⟨0, 0, 1⟩ s.rows (after remove)
      ∧ emptied.2 = .ok [("o", ⟨0, 0, 1⟩), ("p", ⟨0, 0, 0⟩)]
      ∧ (∀ e ∈ [("o", (⟨0, 0, 1⟩ : Summary)), ("p", ⟨0, 0, 0⟩)], ∃ o ∈ s.owners, o.name = e.1
        ∧ e.2.Tells (s.rowsOf o.id) (emptied.1.rowsOf o.id))
      ∧ emptied.1.rows ≠ s.rows := by
  intro leaf inner tree grown owner history s grow merge remove after emptied
  have htells : ∀ {w : Write} {c : Summary}, (∀ leaves ∈ w.merges, leaves.Exact) →
      (s.write .readWrite owner w).2 = .ok c → c.Tells s.rows (after w) :=
    fun hexact h => (summaries_tell history).1 _ _ _ _ _ hexact (Prod.snd_eq_iff.mp h)
  have hgrow : (s.write .readWrite owner grow).2 = .ok ⟨2, 2, 1⟩ :=
    toOption_eq_some_iff.mp (by decide +kernel)
  have hmerge : (s.write .readWrite owner merge).2 = .ok ⟨1, 0, 0⟩ :=
    toOption_eq_some_iff.mp (by decide +kernel)
  have hremove : (s.write .readWrite owner remove).2 = .ok ⟨0, 0, 1⟩ :=
    toOption_eq_some_iff.mp (by decide +kernel)
  have hemptied : emptied.2 = .ok [("o", ⟨0, 0, 1⟩), ("p", ⟨0, 0, 0⟩)] :=
    toOption_eq_some_iff.mp (by decide +kernel)
  have hmerged : ∀ leaves ∈ merge.merges, leaves.Exact := by
    intro leaves hleaves
    rw [List.mem_singleton.mp hleaves]
    exact ⟨List.pairwise_singleton _ _, trivial, trivial⟩
  obtain ⟨hfound, -, hempty⟩ := (summaries_tell history).2 _ _ _ _ _ (Prod.snd_eq_iff.mp hemptied)
  refine ⟨hgrow, htells (by simp [grow, Write.merges]) hgrow, hmerge, htells hmerged hmerge,
    hremove, htells (by simp [remove, Write.merges]) hremove, hemptied, fun e he => ?_, ?_⟩
  · obtain ⟨o, ho, -, -, hname, hsame⟩ := hfound e he
    exact ⟨o, ho, hname, hsame⟩
  · intro hrows
    have hnone := hempty.mpr hrows _ List.mem_cons_self
    cases hnone

end DataTree
