import DataTree.Proofs.Json.Held
import DataTree.Proofs.Store.Provenance

/-!
# Updates give other leaves

Leaves are compared as values before an update is planned, so no update gives
a row the text that it has.  Doubles are the exception: one may be read back
as another, and merging such a one again is planned although the text stays
the same.

## Main definitions

* `Edit.Changes` — an update that gives other leaves.

## Main results

* `changes_of_reconcile` — all updates of a reconciliation give other leaves.
* `changes_of_plan` — so do those of a plan, if what it merges is without
  doubles.
-/

namespace DataTree

/-! ## Updates of a plan -/

/-- Whether an edit, should it be an update, gives other leaves than it
expects. -/
def Edit.Changes : Edit → Prop
  | .update _ _ expected attributes => attributes ≠ expected
  | .remove .. | .insert .. => True

/-- Leaves that are not the same are not written the same. -/
theorem changes_of_leafEdits {r : Row} {attributes : String} {es : List Edit}
    (h : leafEdits r attributes = .ok es) : ∀ e ∈ es, e.Changes := by
  obtain ⟨old, new, hold, hnew, rfl⟩ := leafEdits_eq_ok_iff.mp h
  by_cases hsame : Leaves.same old new = true
  · simp [hsame]
  · rw [if_neg hsame]
    refine List.forall_mem_singleton.mpr ?_
    show attributes ≠ r.attributes
    rintro rfl
    cases hold.symm.trans hnew
    exact hsame (Leaves.same_self old)

mutual
theorem changes_of_reconcile {rows : List Row} : (d : Draft) → {r : Row} → {es : List Edit} →
    reconcile rows r d = .ok es → ∀ e ∈ es, e.Changes
  | .mk path attributes children, r, es => by
    intro h e he
    obtain ⟨own, below, hown, hbelow, rfl⟩ := reconcile_eq_ok_iff.mp h
    rcases List.mem_append.mp he with he | he
    · exact changes_of_leafEdits hown e he
    · exact changes_of_reconcileChildren children hbelow e he

theorem changes_of_reconcileChildren {rows : List Row} : (ds : List Draft) →
    {parent : Option Nat} → {stored : List Row} → {es : List Edit} →
    reconcileChildren rows parent stored ds = .ok es → ∀ e ∈ es, e.Changes
  | [], parent, stored, es => by
    intro h e he
    cases h
    obtain ⟨q, -, rfl⟩ := eq_remove_of_mem_removeEdits he
    trivial
  | d :: rest, parent, stored, es => by
    intro h e he
    cases hfind : rowWith? stored d.path with
    | some q =>
        obtain ⟨own, more, hown, hrest, rfl⟩ := (reconcileChildren_cons_of_stored hfind).mp h
        rcases List.mem_append.mp he with he | he
        · exact changes_of_reconcile d hown e he
        · exact changes_of_reconcileChildren rest hrest e he
    | none =>
        obtain ⟨more, hrest, rfl⟩ := (reconcileChildren_cons_of_new hfind).mp h
        rcases List.mem_cons.mp he with rfl | he
        · trivial
        · exact changes_of_reconcileChildren rest hrest e he
end

section

variable {s : Store} {owner : Owner} {w : Write}

/-- Neither is a merge of leaves without doubles. -/
theorem changes_of_mergeEdits {id : Nat} {path : String} {leaves : Leaves}
    (hexact : leaves.Exact) {es : List Edit} (h : mergeEdits s id path leaves = .ok es) :
    ∀ e ∈ es, e.Changes := by
  rw [mergeEdits] at h
  split at h
  · cases h
    simp
  · rename_i r _
    split at h
    · cases h
    · rename_i old hold
      cases h
      by_cases hsame : Leaves.same (Keyed.insertAll old leaves) old = true
      · simp [hsame]
      · rw [if_neg hsame]
        refine List.forall_mem_singleton.mpr fun htext => ?_
        rw [← htext] at hold
        apply hsame
        rw [Leaves.insertAll_eq_of_parse_text (Leaves.held_of_parse hold) hexact hold]
        exact Leaves.same_self old

theorem changes_of_batchEdits (hexact : ∀ leaves ∈ w.merges, leaves.Exact)
    {updates : List (String × Leaves)} (hupdates : w.merges = updates.map (·.2)) {id : Nat}
    {es : List Edit} (h : batchEdits s id updates = .ok es) : ∀ e ∈ es, e.Changes := by
  intro e he
  obtain ⟨u, hu, own, hown, he⟩ := mem_batchEdits h he
  have hmerged : u.2 ∈ w.merges := by
    rw [hupdates]
    exact List.mem_map_of_mem hu
  exact changes_of_mergeEdits (hexact u.2 hmerged) hown e he

theorem changes_of_planAdd {parent : String} {nodes : List Node} {change : Change}
    (h : planAdd s owner parent nodes = .ok change) : ∀ e ∈ change.editList, e.Changes := by
  obtain ⟨⟨id, path⟩, -, h⟩ := bind_eq_ok_iff.mp h
  obtain ⟨ds, -, h⟩ := bind_eq_ok_iff.mp h
  cases h
  intro e he
  obtain ⟨d, -, rfl⟩ := List.mem_map.mp he
  trivial

/-- Updates of a plan give other leaves, as long as what is merged is without
doubles. -/
theorem changes_of_plan (hs : s.Sound) (hexact : ∀ leaves ∈ w.merges, leaves.Exact)
    {change : Change} (h : w.plan s owner = .ok change) : ∀ e ∈ change.editList, e.Changes := by
  have hremoves : change.editList = [] → ∀ e ∈ change.editList, e.Changes := by
    intro hnil e he
    rw [hnil] at he
    cases he
  cases w with
  | store nodes =>
      obtain ⟨ds, -, rfl⟩ := map_eq_ok_iff.mp h
      intro e he
      obtain ⟨d, -, rfl⟩ := List.mem_map.mp he
      trivial
  | add parent nodes => exact changes_of_planAdd h
  | addList parent elements =>
      rw [Write.plan, planAddList] at h
      split at h
      · cases h
      · exact changes_of_planAdd h
  | updateLeaves path leaves =>
      obtain ⟨target, -, h⟩ := bind_eq_ok_iff.mp h
      obtain ⟨es, hes, h⟩ := bind_eq_ok_iff.mp h
      cases h
      exact changes_of_batchEdits hexact rfl hes
  | updateBatch updates =>
      obtain ⟨es, hes, rfl⟩ := map_eq_ok_iff.mp h
      exact changes_of_batchEdits hexact rfl hes
  | updateTrees nodes =>
      obtain ⟨ds, -, h⟩ := bind_eq_ok_iff.mp h
      obtain ⟨es, hes, h⟩ := bind_eq_ok_iff.mp h
      cases h
      intro e he
      obtain ⟨d, -, r, -, own, hown, he⟩ := mem_updateEdits hes he
      exact changes_of_reconcile d hown e he
  | replaceList parent elements =>
      obtain ⟨id, stored, ds, es, -, -, hes, rfl⟩ := planReplaceList_eq_ok hs h
      exact changes_of_reconcileChildren ds hes
  | delete path => exact hremoves (editList_planDelete h)
  | deleteMany paths => exact hremoves (editList_planDeleteMany h)
  | deleteList path => exact hremoves (editList_planDeleteList h)
  | deleteAll =>
      cases h
      exact hremoves rfl

end

end DataTree
