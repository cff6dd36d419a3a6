import DataTree.Proofs.Store.Listed
import DataTree.Proofs.Store.Plan

/-!
# Parts of trees

What a write stores are nodes of the trees it is given, whole trees or nodes
inside them: a reconciliation goes down a tree beside the rows that are stored
and writes the leaves of some of its nodes and inserts others whole.

## Main definitions

* `Node.Within`, `Draft.Within` — a node or draft in a tree, at any depth.
* `Edit.From` — whether an edit stores nothing but parts of drafts.

## Main results

* `exists_within_of_drafted` — parts of drafts are drafts of parts.
* `exists_within_of_mem_rows` — the rows of a draft are its parts.
* `from_of_reconcile` — a reconciliation stores parts of its draft.
-/

namespace DataTree

/-- A node in a tree, at any depth. -/
inductive Node.Within (m : Node) : Node → Prop where
  | self : Within m m
  | child {n c : Node} : c ∈ n.children → Within m c → Within m n

/-- What holds of all parts of a node holds of the node and of all parts of its children. -/
theorem Node.forall_within_mk {P : Node → Prop} {path : String} {leaves : Leaves}
    {children : List (String × Node)} :
    (∀ n : Node, n.Within (.mk path leaves children) → P n)
      ↔ P (.mk path leaves children) ∧ ∀ child ∈ children, ∀ n : Node, n.Within child.2 → P n := by
  have hchildren : ∀ {child}, child ∈ children →
      child.2 ∈ (Node.mk path leaves children).children := fun hchild => List.mem_map_of_mem hchild
  refine ⟨fun h => ⟨h _ .self, fun child hchild n hn => h n (.child (hchildren hchild) hn)⟩, ?_⟩
  rintro ⟨hself, hbelow⟩ n hn
  cases hn with
  | self => exact hself
  | child hc hn =>
      obtain ⟨child, hchild, rfl⟩ := List.mem_map.mp hc
      exact hbelow child hchild n hn

/-- A draft in another, at any depth. -/
inductive Draft.Within (c : Draft) : Draft → Prop where
  | self : Within c c
  | child {d e : Draft} : e ∈ d.children → Within c e → Within c d

/-- The parts of drafts are the drafts of the parts of their nodes. -/
theorem exists_within_of_drafted {c d : Draft} (h : c.Within d) {n : Node} (hd : n.Drafted d) :
    ∃ m : Node, m.Within n ∧ m.Drafted c := by
  induction h generalizing n with
  | self => exact ⟨n, .self, hd⟩
  | child he _ ih =>
      obtain ⟨k, hk, hke⟩ := exists_listed hd.forall₂ he
      obtain ⟨m, hm, hmc⟩ := ih hke
      exact ⟨m, .child hk hm, hmc⟩

theorem Draft.Exact.within {c d : Draft} (hd : d.Exact) (h : c.Within d) : c.Exact := by
  induction h with
  | self => exact hd
  | child he _ ih => exact ih (hd.child he)

mutual
/-- The rows of a draft are its parts. -/
theorem exists_within_of_mem_rows {owner : Nat} {r : Row} : (d : Draft) → {parent : Option Nat} →
    {next : Nat} → r ∈ d.rows owner parent next →
    ∃ c : Draft, c.Within d ∧ c.path = r.path ∧ c.attributes = r.attributes
  | .mk path attributes children, parent, next => by
    intro h
    rw [Draft.rows] at h
    rcases List.mem_cons.mp h with rfl | h
    · exact ⟨_, .self, rfl, rfl⟩
    · obtain ⟨e, he, c, hc, hsame⟩ := exists_within_of_mem_rowsOfAll children h
      exact ⟨c, .child he hc, hsame⟩

theorem exists_within_of_mem_rowsOfAll {owner : Nat} {r : Row} : (ds : List Draft) →
    {parent : Option Nat} → {next : Nat} → r ∈ Draft.rowsOfAll owner parent next ds →
    ∃ d ∈ ds, ∃ c : Draft, c.Within d ∧ c.path = r.path ∧ c.attributes = r.attributes
  | [], parent, next => by
    intro h
    cases h
  | d :: rest, parent, next => by
    intro h
    rw [Draft.rowsOfAll] at h
    rcases List.mem_append.mp h with h | h
    · exact ⟨d, List.mem_cons_self, exists_within_of_mem_rows d h⟩
    · obtain ⟨e, he, hfound⟩ := exists_within_of_mem_rowsOfAll rest h
      exact ⟨e, List.mem_cons_of_mem d he, hfound⟩
end

/-! ## Reconciliations -/

/-- Whether all that an edit stores is part of one of some drafts. -/
def Edit.From (ds : List Draft) : Edit → Prop
  | .remove .. => True
  | .update _ _ _ attributes => ∃ d ∈ ds, ∃ c : Draft, c.Within d ∧ c.attributes = attributes
  | .insert _ c => ∃ d ∈ ds, c.Within d

theorem Edit.From.mono {ds es : List Draft} {e : Edit} (h : e.From ds)
    (hmono : ∀ d ∈ ds, ∀ c : Draft, c.Within d → ∃ d' ∈ es, c.Within d') : e.From es := by
  cases e with
  | remove id path => trivial
  | update id path expected attributes =>
      obtain ⟨d, hd, c, hc, hattributes⟩ := h
      obtain ⟨d', hd', hc'⟩ := hmono d hd c hc
      exact ⟨d', hd', c, hc', hattributes⟩
  | insert parent c =>
      obtain ⟨d, hd, hc⟩ := h
      exact hmono d hd c hc

theorem Edit.From.of_subset {ds es : List Draft} (hsub : ds ⊆ es) {e : Edit} (h : e.From ds) :
    e.From es :=
  h.mono fun d hd _ hc => ⟨d, hsub hd, hc⟩

mutual
/-- A reconciliation stores parts of its draft. -/
theorem from_of_reconcile {rows : List Row} : (d : Draft) → {r : Row} → {es : List Edit} →
    reconcile rows r d = .ok es → ∀ e ∈ es, e.From [d]
  | .mk path attributes children, r, es => by
    intro h e he
    obtain ⟨own, below, hown, hbelow, rfl⟩ := reconcile_eq_ok_iff.mp h
    rcases List.mem_append.mp he with he | he
    · rw [eq_update_of_mem_leafEdits hown he]
      exact ⟨_, List.mem_singleton.mpr rfl, _, .self, rfl⟩
    · refine (from_of_reconcileChildren children hbelow e he).mono fun d hd c hc => ?_
      exact ⟨_, List.mem_singleton.mpr rfl, .child hd hc⟩

theorem from_of_reconcileChildren {rows : List Row} {parent : Option Nat} : (ds : List Draft) →
    {stored : List Row} → {es : List Edit} → reconcileChildren rows parent stored ds = .ok es →
    ∀ e ∈ es, e.From ds
  | [], stored, es => by
    intro h e he
    cases h
    obtain ⟨q, -, rfl⟩ := eq_remove_of_mem_removeEdits he
    trivial
  | d :: rest, stored, es => by
    intro h e he
    have hrest : rest ⊆ d :: rest := List.subset_cons_self d rest
    have hhead : [d] ⊆ d :: rest := List.cons_subset.mpr ⟨List.mem_cons_self, List.nil_subset _⟩
    cases hfind : rowWith? stored d.path with
    | none =>
        obtain ⟨more, hmore, rfl⟩ := (reconcileChildren_cons_of_new hfind).mp h
        rcases List.mem_cons.mp he with rfl | he
        · exact ⟨d, List.mem_cons_self, .self⟩
        · exact (from_of_reconcileChildren rest hmore e he).of_subset hrest
    | some q =>
        obtain ⟨own, more, hown, hmore, rfl⟩ := (reconcileChildren_cons_of_stored hfind).mp h
        rcases List.mem_append.mp he with he | he
        · exact (from_of_reconcile d hown e he).of_subset hhead
        · exact (from_of_reconcileChildren rest hmore e he).of_subset hrest
end

/-- So does an update of trees. -/
theorem from_of_updateEdits {s : Store} {owner : Nat} {ds : List Draft} {es : List Edit}
    (h : updateEdits s owner ds = .ok es) : ∀ e ∈ es, e.From ds := by
  intro e he
  obtain ⟨d, hd, r, -, own, hown, he⟩ := mem_updateEdits h he
  exact (from_of_reconcile d hown e he).of_subset (List.cons_subset.mpr ⟨hd, List.nil_subset _⟩)

end DataTree
