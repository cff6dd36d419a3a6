import DataTree.Proofs.Store.Operations
import DataTree.Proofs.Store.Parts

/-!
# Where rows come from

The path of a row is that of a node some operation was given, in a tree or by
itself, and its leaves are those of such a node, into which leaves of updates
may have been merged since.  So what holds of all nodes that operations are
given, and is kept when their leaves are merged, holds of all rows.

## Main definitions

* `Write.trees`, `Write.merges` — the trees that a write is given, and the
  leaves that it merges into rows.
* `Write.Fills`, `Store.Filled` — what holds of paths and leaves that are
  given, and of those that are stored.

## Main results

* `fills_plan` — edits store what the write was given.
* `filled_after` — what holds of all that is given holds of all rows.
-/

namespace DataTree

open DataTree.Path

theorem Draft.Within.trans {a b c : Draft} (hab : a.Within b) (hbc : b.Within c) : a.Within c := by
  induction hbc with
  | self => exact hab
  | child he _ ih => exact .child he ih

/-! ## What is given -/

/-- The trees that a write is given. -/
def Write.trees : Write → List Node
  | .store nodes | .add _ nodes | .addList _ nodes | .updateTrees nodes | .replaceList _ nodes =>
    Node.listed nodes
  | _ => []

/-- The leaves that a write merges into rows. -/
def Write.merges : Write → List Leaves
  | .updateLeaves _ leaves => [leaves]
  | .updateBatch updates => updates.map (·.2)
  | _ => []

/-- The write that an operation carries out. -/
def Operation.write? : Operation → Option Write
  | .request _ (.write _ w) => some w
  | _ => none

section

variable (P Q : String → Prop)

/-- Whether canonical paths of the nodes that a write is given have `P` and
their leaves have `Q`, which merging keeps. -/
structure Write.Fills (w : Write) : Prop where
  trees : ∀ top ∈ w.trees, ∀ n : Node, n.Within top → n.validate = .ok () →
    ∀ path, normalize n.path = .ok path → P path ∧ Q (Leaves.text n.leaves)
  merges : ∀ leaves ∈ w.merges, ∀ text old, Q text → Leaves.parse text = some old →
    Q (Leaves.text (Keyed.insertAll old leaves))

/-- Whether all paths of rows have `P` and all leaves have `Q`. -/
def Store.Filled (s : Store) : Prop := ∀ r ∈ s.rows, P r.path ∧ Q r.attributes

def Draft.Filled (d : Draft) : Prop := ∀ c : Draft, c.Within d → P c.path ∧ Q c.attributes

/-- Whether what an edit stores has `P` and `Q`. -/
def Edit.Fills : Edit → Prop
  | .remove .. => True
  | .update _ _ _ attributes => Q attributes
  | .insert _ d => d.Filled P Q

end

section

variable {P Q : String → Prop} {s t : Store} {owner : Owner} {w : Write}

theorem Store.Filled.empty : Store.empty.Filled P Q := by
  intro r hr
  cases hr

theorem Store.Filled.of_subset (h : s.Filled P Q) (hrows : t.rows ⊆ s.rows) : t.Filled P Q :=
  fun r hr => h r (hrows hr)

/-! ## Edits -/

theorem Edit.From.fills {ds : List Draft} {e : Edit} (h : e.From ds)
    (hds : ∀ d ∈ ds, d.Filled P Q) : e.Fills P Q := by
  cases e with
  | remove id path => trivial
  | update id path expected attributes =>
      obtain ⟨d, hd, c, hc, rfl⟩ := h
      exact (hds d hd c hc).2
  | insert parent c =>
      obtain ⟨d, hd, hc⟩ := h
      exact fun b hb => hds d hd b (hb.trans hc)

/-- An edit stores what it brings. -/
theorem Store.Filled.effect (h : s.Filled P Q) (id : Nat) {e : Edit} (he : e.Fills P Q) :
    (e.effect id s).Filled P Q := by
  intro r hr
  cases e with
  | remove id path => exact h r ((Store.survivors_sublist _ _ _).subset hr)
  | update id path expected attributes =>
      obtain ⟨q, hq, hsame⟩ := Edit.mem_effect_update_iff.mp hr
      rcases hsame with ⟨-, rfl⟩ | ⟨-, rfl⟩
      · exact ⟨(h q hq).1, he⟩
      · exact h r hq
  | insert parent d =>
      rcases List.mem_append.mp hr with hr | hr
      · exact h r hr
      · obtain ⟨c, hc, hpath, hattributes⟩ := exists_within_of_mem_rows d hr
        rw [← hpath, ← hattributes]
        exact he c hc

/-! ## Writes -/

/-- Drafts hold what their nodes do. -/
theorem filled_of_drafted (hw : w.Fills P Q) {ds : List Draft}
    (hds : List.Forall₂ Node.Drafted w.trees ds) : ∀ d ∈ ds, d.Filled P Q := by
  intro d hd c hc
  obtain ⟨top, htop, hdrafted⟩ := exists_listed hds hd
  obtain ⟨n, hn, hvalid, hdraft⟩ := exists_within_of_drafted hc hdrafted
  obtain ⟨path, leaves, children⟩ := n
  obtain ⟨target, below, hpath, -, rfl⟩ := Draft.ofNode_eq_ok_iff.mp hdraft
  exact hw.trees top htop _ hn hvalid target hpath

/-- The edits of a plan. -/
def Change.editList : Change → List Edit
  | .edits es | .unit es => es
  | .removal _ | .clear => []

theorem editList_removalOf {path : String} {rows : List Row} {change : Change}
    (h : removalOf owner path rows = .ok change) : change.editList = [] := by
  rw [removalOf_eq_ok h]
  rfl

theorem editList_planDelete {path : String} {change : Change}
    (h : planDelete s owner path = .ok change) : change.editList = [] := by
  rw [planDelete] at h
  split at h
  · cases h
    rfl
  · obtain ⟨target, -, h⟩ := bind_eq_ok_iff.mp h
    exact editList_removalOf h

theorem editList_planDeleteMany {paths : List String} {change : Change}
    (h : planDeleteMany s owner paths = .ok change) : change.editList = [] := by
  rw [planDeleteMany] at h
  split at h
  · cases h
    rfl
  · split at h
    · cases h
      rfl
    · cases h

theorem editList_planDeleteList {path : String} {change : Change}
    (h : planDeleteList s owner path = .ok change) : change.editList = [] := by
  obtain ⟨q, -, h⟩ := bind_eq_ok_iff.mp h
  simp only at h
  split at h
  · cases h
  · exact editList_removalOf h

theorem Write.Fills.insert (hw : w.Fills P Q) {ds : List Draft}
    (hds : List.Forall₂ Node.Drafted w.trees ds) (parent : Option Nat) :
    ∀ e ∈ ds.map (Edit.insert parent), e.Fills P Q := by
  intro e he
  obtain ⟨d, hd, rfl⟩ := List.mem_map.mp he
  exact filled_of_drafted hw hds d hd

theorem fills_planAdd (hw : w.Fills P Q) {parent : String} {nodes : List Node}
    (hnodes : w.trees = Node.listed nodes) {change : Change}
    (h : planAdd s owner parent nodes = .ok change) : ∀ e ∈ change.editList, e.Fills P Q := by
  obtain ⟨⟨id, path⟩, -, h⟩ := bind_eq_ok_iff.mp h
  obtain ⟨ds, hds, h⟩ := bind_eq_ok_iff.mp h
  cases h
  refine hw.insert ?_ id
  rw [hnodes]
  exact forall₂_of_draftsUnder hds

theorem fills_planReplaceList {parent : String} {elements : List Node}
    (hw : (Write.replaceList parent elements).Fills P Q) {change : Change}
    (h : planReplaceList s owner parent elements = .ok change) :
    ∀ e ∈ change.editList, e.Fills P Q := by
  cases elements with
  | nil => cases h
  | cons first rest =>
      obtain ⟨⟨id, path⟩, -, h⟩ := bind_eq_ok_iff.mp h
      obtain ⟨ds, hds, h⟩ := bind_eq_ok_iff.mp h
      obtain ⟨address, -, h⟩ := bind_eq_ok_iff.mp h
      simp only at h
      split at h
      · cases h
      · obtain ⟨es, hes, h⟩ := bind_eq_ok_iff.mp h
        cases h
        exact fun e he => (from_of_reconcileChildren ds hes e he).fills
          (filled_of_drafted hw (forall₂_of_draftsUnder hds))

/-- Merged leaves are as `Fills` says of the leaves that the rows had. -/
theorem fills_batchEdits (hs : s.Filled P Q) (hw : w.Fills P Q) {updates : List (String × Leaves)}
    (hupdates : w.merges = updates.map (·.2)) {es : List Edit}
    (hes : batchEdits s owner.id updates = .ok es) : ∀ e ∈ es, e.Fills P Q := by
  intro e he
  obtain ⟨u, hu, own, hown, he⟩ := mem_batchEdits hes he
  obtain ⟨r, hr, -, -, old, hold, rfl⟩ := eq_update_of_mem_mergeEdits hown he
  refine hw.merges u.2 ?_ _ old (hs r hr).2 hold
  rw [hupdates]
  exact List.mem_map_of_mem hu

/-- Edits store what the write was given. -/
theorem fills_plan (hs : s.Filled P Q) (hw : w.Fills P Q) {change : Change}
    (h : w.plan s owner = .ok change) : ∀ e ∈ change.editList, e.Fills P Q := by
  have hremoves : change.editList = [] → ∀ e ∈ change.editList, e.Fills P Q := by
    intro hnil e he
    rw [hnil] at he
    cases he
  cases w with
  | store nodes =>
      obtain ⟨ds, hds, rfl⟩ := map_eq_ok_iff.mp h
      exact hw.insert (forall₂_of_draftsOfAll hds) none
  | add parent nodes => exact fills_planAdd hw rfl h
  | addList parent elements =>
      rw [Write.plan, planAddList] at h
      split at h
      · cases h
      · exact fills_planAdd hw rfl h
  | updateLeaves path leaves =>
      obtain ⟨target, -, h⟩ := bind_eq_ok_iff.mp h
      obtain ⟨es, hes, h⟩ := bind_eq_ok_iff.mp h
      cases h
      exact fills_batchEdits hs hw rfl hes
  | updateBatch updates =>
      obtain ⟨es, hes, rfl⟩ := map_eq_ok_iff.mp h
      exact fills_batchEdits hs hw rfl hes
  | updateTrees nodes =>
      obtain ⟨ds, hds, h⟩ := bind_eq_ok_iff.mp h
      obtain ⟨es, hes, h⟩ := bind_eq_ok_iff.mp h
      cases h
      exact fun e he => (from_of_updateEdits hes e he).fills
        (filled_of_drafted hw (forall₂_of_draftsOfAll hds))
  | replaceList parent elements => exact fills_planReplaceList hw h
  | delete path => exact hremoves (editList_planDelete h)
  | deleteMany paths => exact hremoves (editList_planDeleteMany h)
  | deleteList path => exact hremoves (editList_planDeleteList h)
  | deleteAll =>
      cases h
      exact hremoves rfl

theorem filled_commit (h : s.Filled P Q) {change : Change}
    (hedits : ∀ e ∈ change.editList, e.Fills P Q) : (change.commit s owner).1.Filled P Q := by
  cases change with
  | edits es =>
      exact applyWithFallback_keeps (I := fun s => s.Filled P Q)
        (fun e he _ hs _ _ => hs.effect owner.id (hedits e he)) h
  | unit es =>
      exact applyAsUnit_keeps (I := fun s => s.Filled P Q)
        (fun e he _ hs _ _ => hs.effect owner.id (hedits e he)) h
  | removal ids =>
      exact Change.remove_keeps (fun s => s.Filled P Q) h
        (h.of_subset (Store.survivors_sublist _ _ _).subset)
  | clear =>
      exact Change.remove_keeps (fun s => s.Filled P Q) h
        (h.of_subset (Store.survivors_sublist _ _ _).subset)

theorem filled_write (h : s.Filled P Q) (hw : w.Fills P Q) (access : Access) (owner : Owner) :
    (s.write access owner w).1.Filled P Q := by
  rw [Store.write]
  split
  · exact h
  · rename_i change hplan
    split
    · exact h
    · exact filled_commit h (fills_plan h hw hplan)

/-! ## Operations -/

theorem rows_clearOwners_subset (s : Store) (owners : List OwnerRow) :
    (s.clearOwners owners).1.rows ⊆ s.rows := by
  induction owners generalizing s with
  | nil => exact List.Subset.refl _
  | cons o rest ih => exact List.Subset.trans (ih _) (Store.survivors_sublist _ _ _).subset

theorem filled_operation {operation : Operation}
    (hw : ∀ w, operation.write? = some w → w.Fills P Q) (h : s.Filled P Q) :
    (operation.run s).Filled P Q := by
  rcases operation.request_or_unlocked s with ⟨access, asked, rfl⟩ | hsame
  · have hdoes := asked.does_run access s
    rw [Operation.run]
    generalize asked.run access s = s' at hdoes ⊢
    cases hdoes with
    | nothing => exact h
    | createDataspace name hnew => exact h
    | createOwner dataspace name hnew hthere => exact h
    | deleteOwner owner hthere => exact h.of_subset (Store.survivors_sublist _ _ _).subset
    | write access owner w => exact filled_write h (hw w rfl) access owner
    | deleteForOwners dataspace names => exact h.of_subset (rows_clearOwners_subset s _)
  · obtain ⟨-, -, hrows, -⟩ := tables_of_unlocked hsame
    exact h.of_subset fun r hr => hrows ▸ hr

/-- What holds of all that operations are given holds of all rows after
them. -/
theorem filled_after {history : List Operation}
    (h : ∀ operation ∈ history, ∀ w, operation.write? = some w → w.Fills P Q) :
    (Store.empty.after history).Filled P Q :=
  Store.after_keeps (I := fun s => s.Filled P Q)
    (fun operation hmem _ hs => filled_operation (h operation hmem) hs) .empty

end

end DataTree
