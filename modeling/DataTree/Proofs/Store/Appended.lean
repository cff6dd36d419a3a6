import DataTree.Proofs.Store.Enacted
import DataTree.Proofs.Store.Listed

/-!
# Reading after insertions

A write that only inserts appends the rows of its drafts and touches no row
that was there.  The new rows hang under one parent, or under none, and
under each other, so a read meets them only from that parent or from a row
above it: every other row reads as before, the parent reads with the drafts
as further children, and the rows the drafts themselves have become read as
the drafts.

## Main definitions

* `Appended` — a store to which drafts were appended under a parent.
* `Store.Plain` — whether all stored leaves are scalars or lists of scalars.

## Main results

* `appended_of_commit` — what a successful insertion leaves behind.
* `Appended.tops`, `Appended.node_apart`, `Appended.node_parent` — the rows of
  the drafts, rows elsewhere, and the parent, read afterwards.
-/

namespace DataTree

open DataTree.Path

/-- Whether all stored leaves are scalars or lists of scalars. -/
def Store.Plain (s : Store) : Prop :=
  ∀ r ∈ s.rows, ∃ leaves, Leaves.parse r.attributes = some leaves
    ∧ ∀ leaf ∈ leaves, leaf.2.isLeafValue = true

instance (s : Store) : Decidable s.Plain :=
  decidable_of_iff (∀ r ∈ s.rows, (Leaves.parse r.attributes).any
    (fun leaves => leaves.all fun leaf => leaf.2.isLeafValue) = true) <| by
    unfold Store.Plain
    refine forall₂_congr fun r _ => ?_
    cases Leaves.parse r.attributes <;> simp

/-- Every row of a plain store can be read. -/
theorem Store.Plain.exists_node {s : Store} (h : s.Plain) (fetch : Fetch) {r : Row}
    (hr : r ∈ s.rows) : ∃ n, s.node fetch r = .ok n := by
  refine DataTree.exists_node (fun q hq => ?_) fetch hr
  obtain ⟨leaves, hleaves, -⟩ := h q hq
  exact ⟨leaves, hleaves⟩

/-- A store `t` that is `s` with the rows of drafts appended under a parent. -/
structure Appended (owner : Nat) (parent : Option Nat) (ds : List Draft) (s t : Store) : Prop where
  before : s.Sound
  after : t.Sound
  rows : t.rows = s.rows ++ Draft.rowsOfAll owner parent (s.lastRow + 1) ds
  /-- The parent is not one of the new rows. -/
  parent : ∀ g, parent = some g → g ≤ s.lastRow
  exact : ∀ d ∈ ds, d.Exact
  /-- The drafts have no path twice, -/
  nodup : (Draft.pathsOfAll ds).Nodup
  /-- nor one that was stored. -/
  fresh : ∀ path ∈ Draft.pathsOfAll ds, path ∉ s.pathsOf owner

/-! ## Insertions in turn -/

/-- Insertions stay in the order planned. -/
theorem inOrder_inserts (parent : Option Nat) (ds : List Draft) :
    inOrder (ds.map (.insert parent)) = ds.map (.insert parent) := by
  have hkinds : ∀ e ∈ ds.map (Edit.insert parent), e.isRemove = false ∧ e.isUpdate = false
      ∧ e.isInsert = true := by
    intro e he
    obtain ⟨d, -, rfl⟩ := List.mem_map.mp he
    exact ⟨rfl, rfl, rfl⟩
  rw [inOrder, List.filter_eq_nil_iff.mpr fun e he => by simp [(hkinds e he).1],
    List.filter_eq_nil_iff.mpr fun e he => by simp [(hkinds e he).2.1],
    List.filter_eq_self.mpr fun e he => (hkinds e he).2.2]
  rfl

/-- Insertions none of which is skipped had free paths, and have appended
their blocks one after the other. -/
theorem inTurn_inserts {owner : Nat} {parent : Option Nat} {ds : List Draft} {s : Store}
    (h : (inTurn owner (ds.map (.insert parent)) s).skipped = []) :
    firstTaken (s.pathsOf owner) (Draft.pathsOfAll ds) = none
      ∧ (inTurn owner (ds.map (.insert parent)) s).store
        = s.grow (Draft.rowsOfAll owner parent (s.lastRow + 1) ds)
      ∧ (inTurn owner (ds.map (.insert parent)) s).done = ds.map (.insert parent) := by
  induction ds generalizing s with
  | nil => exact ⟨rfl, (Store.grow_nil s).symm, rfl⟩
  | cons d rest ih =>
      rw [List.map_cons] at h ⊢
      cases hconflict : (Edit.insert parent d).conflict? owner s with
      | some conflict =>
          rw [inTurn_cons_of_conflict hconflict] at h
          cases h
      | none =>
          rw [inTurn_cons_of_free hconflict] at h ⊢
          obtain ⟨hfree, hstore, hdone⟩ := ih h
          let new := d.rows owner parent (s.lastRow + 1)
          have hpaths : (s.grow new).pathsOf owner = s.pathsOf owner ++ d.paths := by
            rw [Store.pathsOf_grow fun r hr => Draft.owner_of_mem_rows d hr, Draft.map_path_rows]
          have hlast : (s.grow new).lastRow + 1 = s.lastRow + 1 + d.size := by
            show s.lastRow + new.length + 1 = _
            rw [Draft.length_rows]
            omega
          refine ⟨?_, ?_, congrArg (List.cons _) hdone⟩
          · rw [Draft.pathsOfAll, firstTaken_append, Option.or_eq_none_iff]
            refine ⟨Edit.conflict?_insert_eq_none_iff.mp hconflict, ?_⟩
            rw [← hpaths]
            exact hfree
          · rw [Draft.rowsOfAll, Store.grow_append, ← hlast]
            exact hstore

theorem counts_inserts (parent : Option Nat) (ds : List Draft) :
    counts (ds.map (.insert parent)) = { inserted := Draft.sizeOfAll ds } := by
  induction ds with
  | nil => rfl
  | cons d rest ih =>
      rw [List.map_cons, counts_cons, ih, Draft.sizeOfAll]
      simp [Edit.tally, Summary.add]

/-- A write that only inserts appends the rows of its drafts if it succeeds,
and counts them. -/
theorem appended_of_commit {s s' : Store} {owner : Owner} {parent : Option Nat}
    {ds : List Draft} {summary : Summary} (hs : s.Sound) (hs' : s'.Sound)
    (hparent : ∀ g, parent = some g → g ≤ s.lastRow) (hexact : ∀ d ∈ ds, d.Exact)
    (h : Change.commit s owner (.edits (ds.map (.insert parent))) = (s', .ok summary)) :
    Appended owner.id parent ds s s' ∧ summary = { inserted := Draft.sizeOfAll ds } := by
  obtain ⟨-, hnone, hstore⟩ := inTurn_of_commit h
  have hsummary := summary_of_commit h
  rw [inOrder_inserts] at hnone hstore hsummary
  obtain ⟨hfree, hgrown, hdone⟩ := inTurn_inserts hnone
  obtain ⟨hnodup, hfresh⟩ := firstTaken_eq_none_iff.mp hfree
  rw [hgrown] at hstore
  rw [hdone, counts_inserts] at hsummary
  exact ⟨⟨hs, hs', by rw [hstore]; rfl, hparent, hexact, hnodup, hfresh⟩, hsummary⟩

/-! ## Reads afterwards -/

namespace Appended

variable {owner : Nat} {parent : Option Nat} {ds : List Draft} {s t : Store}

theorem parent_lt (h : Appended owner parent ds s t) :
    ∀ g, parent = some g → g < s.lastRow + 1 :=
  fun g hg => Nat.lt_succ_of_le (h.parent g hg)

theorem mem (h : Appended owner parent ds s t) {r : Row} (hr : r ∈ s.rows) : r ∈ t.rows := by
  rw [h.rows]
  exact List.mem_append_left _ hr

/-- The rows of the drafts themselves are those that hang under the parent. -/
theorem mem_tops (h : Appended owner parent ds s t) {q : Row}
    (hq : q ∈ Draft.topsOf owner parent (s.lastRow + 1) ds) : q ∈ t.rows := by
  rw [← Draft.filter_rowsOfAll h.parent_lt] at hq
  rw [h.rows]
  exact List.mem_append_right _ (List.mem_filter.mp hq).1

/-- The rows of the drafts read as the drafts. -/
theorem tops (h : Appended owner parent ds s t) :
    (Draft.topsOf owner parent (s.lastRow + 1) ds).mapM (t.node .all)
      = .ok (ds.map Draft.node) := by
  have hunder : Under (s.lastRow + 1) s.rows :=
    fun r hr => ⟨Nat.lt_succ_of_le (h.before.fresh r hr), h.before.ordered.parents r hr⟩
  have hsettled := settled_topsOf owner ds hunder h.parent_lt h.exact h.nodup
  rw [← h.rows] at hsettled
  exact mapM_node_of_settled h.after (fun q hq => h.mem_tops hq) h.exact hsettled

/-- Rows that are neither the parent nor above it read as before, to every
depth. -/
theorem node_apart (h : Appended owner parent ds s t) {q : Row} (hq : q ∈ s.rows)
    (hapart : ∀ r ∈ s.rows, parent = some r.id → ¬AtOrBelow s.rows q r) (fetch : Fetch) :
    t.node fetch q = s.node fetch q := by
  have hold : s.rows = t.rows.filter fun r => decide (r.id ≤ s.lastRow) := by
    rw [h.rows, List.filter_append, List.filter_eq_self.mpr fun r hr => by
      simpa using h.before.fresh r hr, List.filter_eq_nil_iff.mpr fun r hr => ?_, List.append_nil]
    have := Draft.le_id_of_mem_rowsOfAll ds hr
    simp only [decide_eq_true_eq]
    omega
  -- the rows at and below `q` are closed under taking children, the new ones included
  refine (node_of_filter (K := fun id => ∃ r ∈ s.rows, r.id = id ∧ AtOrBelow s.rows q r)
    hold ?_ fetch ⟨q, hq, rfl, .self hq⟩).symm
  rintro c hc g hg ⟨r, hr, rfl, hbelow⟩
  rw [h.rows] at hc
  rcases List.mem_append.mp hc with hc | hc
  · exact ⟨by simpa using h.before.fresh c hc, c, hc, rfl, hbelow.step hc hg⟩
  · exfalso
    rcases Draft.parent_of_mem_rowsOfAll ds hc with hp | ⟨g, hp, hle⟩
    · exact hapart r hr (hp.symm.trans hg) hbelow
    · cases hp.symm.trans hg
      have := h.before.fresh r hr
      omega

/-- Under the parent hang the rows that did, and those of the drafts. -/
theorem childrenIn_parent (h : Appended owner parent ds s t) {r : Row}
    (hr : parent = some r.id) :
    childrenIn t.rows r
      = childrenIn s.rows r ++ Draft.topsOf owner parent (s.lastRow + 1) ds := by
  rw [← Draft.filter_rowsOfAll h.parent_lt, h.rows, childrenIn, List.filter_append, childrenIn, hr]

/-- The parent reads with the drafts as further children. -/
theorem node_parent (h : Appended owner parent ds s t) {r : Row}
    (hparent : parent = some r.id) {former : Node} (hformer : s.node .all r = .ok former) :
    t.node .all r = .ok (former.addChildren (ds.map Draft.node)) := by
  rw [node_all] at hformer ⊢
  obtain ⟨children, hchildren, hassemble⟩ := bind_eq_ok_iff.mp hformer
  rw [childNodes_all h.before.ordered] at hchildren
  have hold : (childrenIn s.rows r).mapM (t.node .all) = .ok children := by
    rw [← hchildren]
    refine mapM_congr fun c hc => ?_
    obtain ⟨hc, hcparent⟩ := mem_childrenIn.mp hc
    refine h.node_apart hc (fun x hx hx' hbelow => ?_) .all
    have hle := hbelow.le h.before.ordered
    have hlt := h.before.ordered.parents c hc r.id hcparent
    have hid := Option.some.inj (hparent.symm.trans hx')
    omega
  have hread : childNodes .all r.id t.rows = .ok (children ++ ds.map Draft.node) := by
    rw [childNodes_all h.after.ordered, h.childrenIn_parent hparent, List.mapM_append, hold, h.tops]
    rfl
  rw [hread]
  exact assemble_append hassemble _

/-- No child of the parent was filed under a path of the drafts. -/
theorem child?_eq_none (h : Appended owner parent ds s t) {r : Row} (hr : r ∈ s.rows)
    (howner : r.owner = owner) {former : Node} (hformer : s.node .all r = .ok former)
    {path : String} (hpath : path ∈ Draft.pathsOfAll ds) : former.child? path = none := by
  rw [node_all] at hformer
  obtain ⟨children, hchildren, hassemble⟩ := bind_eq_ok_iff.mp hformer
  rw [childNodes_all h.before.ordered] at hchildren
  obtain ⟨leaves, -, rfl⟩ := assemble_eq_ok_iff.mp hassemble
  show Keyed.find? path (Keyed.ofList _) = none
  rw [Keyed.find?_ofList]
  cases hlast : Keyed.lastAt path (children.map fun c => (c.path, c)) with
  | none => rfl
  | some n =>
      exfalso
      obtain ⟨c, hc, heq⟩ := List.mem_map.mp (Keyed.mem_of_lastAt hlast)
      obtain ⟨q, hq, hread⟩ := exists_of_mapM_eq_ok hchildren hc
      refine h.fresh path hpath (Store.mem_pathsOf.mpr ⟨q, (mem_childrenIn.mp hq).1, ?_, ?_⟩)
      · rw [owner_of_child h.before hr hq, howner]
      · rw [← path_of_node hread, (Prod.mk.inj heq).1]

/-- All new rows lie below the parent. -/
theorem below_parent (h : Appended owner parent ds s t) {r : Row} (hr : r ∈ s.rows)
    (hparent : parent = some r.id) {c : Row}
    (hc : c ∈ Draft.rowsOfAll owner parent (s.lastRow + 1) ds) : AtOrBelow t.rows r c := by
  -- parents have smaller ids, so the induction is on the id of the row
  induction hid : c.id using Nat.strongRecOn generalizing c with
  | ind n ih =>
      have hct : c ∈ t.rows := by
        rw [h.rows]
        exact List.mem_append_right _ hc
      rcases Draft.parent_of_mem_rowsOfAll ds hc with hp | ⟨g, hp, hle⟩
      · exact (AtOrBelow.self (h.mem hr)).step hct (hp.trans hparent)
      · obtain ⟨q, hq, rfl, hlt, -, -⟩ := h.after.linked c hct g hp
        rw [h.rows] at hq
        rcases List.mem_append.mp hq with hq | hq
        · have := h.before.fresh q hq
          omega
        · exact (ih q.id (hid ▸ hlt) hq rfl).step hct hp

end Appended

end DataTree
