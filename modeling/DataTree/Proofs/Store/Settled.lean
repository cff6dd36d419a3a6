import DataTree.Proofs.Store.Reconcile

/-!
# Subtrees that need no edit

A stored subtree is settled on a draft if reconciling the two takes no edit.
That is the case exactly if the leaves are equal as values and the children
of both have the same paths, each once, and are settled in turn.

## Main definitions

* `Settled` — a row whose subtree needs no edit.

## Main results

* `Settled.parts`, `settled_of_parts` — settledness by leaves and children.
* `reconcile_append` — rows elsewhere do not matter.
* `Settled.below` — below a settled row lie only rows of the draft.
-/

namespace DataTree

/-- Whether the subtree at a row needs no edit to become a draft. -/
def Settled (rows : List Row) (r : Row) (d : Draft) : Prop := reconcile rows r d = .ok []

/-- Whether the rows `stored` under a parent are what drafts say: each path
occurs once on both sides, with settled subtrees. -/
structure AllSettled (rows stored : List Row) (ds : List Draft) : Prop where
  nodup : (ds.map Draft.path).Nodup
  row : ∀ d ∈ ds, ∃ q ∈ stored, q.path = d.path ∧ Settled rows q d
  draft : ∀ q ∈ stored, ∃ d ∈ ds, q.path = d.path

/-- Rows that are settled on drafts of their paths, one by one. -/
theorem AllSettled.of_forall₂ {rows stored : List Row} {ds : List Draft}
    (hnodup : (ds.map Draft.path).Nodup)
    (h : List.Forall₂ (fun q d => q.path = d.path ∧ Settled rows q d) stored ds) :
    AllSettled rows stored ds := by
  refine ⟨hnodup, ?_, ?_⟩
  · clear hnodup
    induction h with
    | nil => simp
    | cons hq _ ih =>
        intro d hd
        rcases List.mem_cons.mp hd with rfl | hd
        · exact ⟨_, List.mem_cons_self, hq⟩
        · obtain ⟨x, hx, hx'⟩ := ih d hd
          exact ⟨x, List.mem_cons_of_mem _ hx, hx'⟩
  · clear hnodup
    induction h with
    | nil => simp
    | cons hq _ ih =>
        intro x hx
        rcases List.mem_cons.mp hx with rfl | hx
        · exact ⟨_, List.mem_cons_self, hq.1⟩
        · obtain ⟨d, hd, hd'⟩ := ih x hx
          exact ⟨d, List.mem_cons_of_mem _ hd, hd'⟩

/-- No two of some rows have one path. -/
def Distinct (stored : List Row) : Prop := ∀ q ∈ stored, ∀ r ∈ stored, q.path = r.path → q = r

namespace Distinct

variable {stored : List Row}

theorem rowsBut (h : Distinct stored) (path : String) : Distinct (rowsBut stored path) :=
  fun q hq r hr => h q (mem_rowsBut.mp hq).1 r (mem_rowsBut.mp hr).1

theorem rowWith?_eq_some (h : Distinct stored) {q : Row} (hq : q ∈ stored) {path : String}
    (hpath : q.path = path) : rowWith? stored path = some q := by
  cases hfind : rowWith? stored path with
  | none => exact absurd hpath (rowWith?_eq_none_iff.mp hfind q hq)
  | some r =>
      obtain ⟨hr, hrpath⟩ := DataTree.rowWith?_eq_some hfind
      rw [h r hr q hq (hrpath.trans hpath.symm)]

end Distinct

theorem distinct_childrenIn {s : Store} (hs : s.Sound) {r : Row} (hr : r ∈ s.rows) :
    Distinct (childrenIn s.rows r) := by
  intro q hq x hx hpath
  exact hs.eq_of_path (mem_childrenIn.mp hq).1 (mem_childrenIn.mp hx).1
    ((owner_of_child hs hr hq).trans (owner_of_child hs hr hx).symm) hpath

/-! ## Children -/

theorem removeEdits_eq_nil_iff {stored : List Row} : removeEdits stored = [] ↔ stored = [] := by
  rw [removeEdits, List.map_eq_nil_iff, Keyed.ofList_eq_nil_iff, List.map_eq_nil_iff]

theorem allSettled_of_reconcileChildren {rows : List Row} {parent : Option Nat}
    {ds : List Draft} {stored : List Row}
    (h : reconcileChildren rows parent stored ds = .ok []) : AllSettled rows stored ds := by
  induction ds generalizing stored with
  | nil =>
      have hnil : removeEdits stored = [] := Except.ok.inj h
      rw [removeEdits_eq_nil_iff] at hnil
      subst hnil
      exact ⟨List.nodup_nil, by simp, by simp⟩
  | cons d rest ih =>
      cases hfind : rowWith? stored d.path with
      | none =>
          obtain ⟨more, -, hcons⟩ := (reconcileChildren_cons_of_new hfind).mp h
          cases hcons
      | some q =>
          obtain ⟨own, more, hown, hmore, hnil⟩ := (reconcileChildren_cons_of_stored hfind).mp h
          obtain ⟨rfl, rfl⟩ := List.append_eq_nil_iff.mp hnil.symm
          obtain ⟨hq, hpath⟩ := rowWith?_eq_some hfind
          obtain ⟨hnodup, hrow, hdraft⟩ := ih hmore
          refine ⟨?_, ?_, ?_⟩
          · rw [List.map_cons, List.nodup_cons]
            refine ⟨fun hmem => ?_, hnodup⟩
            obtain ⟨c, hc, hcpath⟩ := List.mem_map.mp hmem
            obtain ⟨x, hx, hxpath, -⟩ := hrow c hc
            exact (mem_rowsBut.mp hx).2 (hxpath.trans hcpath)
          · intro c hc
            rcases List.mem_cons.mp hc with rfl | hc
            · exact ⟨q, hq, hpath, hown⟩
            · obtain ⟨x, hx, hx'⟩ := hrow c hc
              exact ⟨x, (mem_rowsBut.mp hx).1, hx'⟩
          · intro x hx
            by_cases hxpath : x.path = d.path
            · exact ⟨d, List.mem_cons_self, hxpath⟩
            · obtain ⟨c, hc, hcpath⟩ := hdraft x (mem_rowsBut.mpr ⟨hx, hxpath⟩)
              exact ⟨c, List.mem_cons_of_mem _ hc, hcpath⟩

theorem AllSettled.reconcileChildren {rows : List Row} {parent : Option Nat} {ds : List Draft}
    {stored : List Row} (h : AllSettled rows stored ds) (hdistinct : Distinct stored) :
    reconcileChildren rows parent stored ds = .ok [] := by
  induction ds generalizing stored with
  | nil =>
      have hnil : stored = [] := List.eq_nil_iff_forall_not_mem.mpr fun q hq => by
        obtain ⟨d, hd, -⟩ := h.draft q hq
        cases hd
      rw [DataTree.reconcileChildren, removeEdits_eq_nil_iff.mpr hnil]
  | cons d rest ih =>
      obtain ⟨hnodup, hrow, hdraft⟩ := h
      rw [List.map_cons, List.nodup_cons] at hnodup
      obtain ⟨q, hq, hpath, hsettled⟩ := hrow d List.mem_cons_self
      rw [reconcileChildren_cons_of_stored (hdistinct.rowWith?_eq_some hq hpath)]
      refine ⟨[], [], hsettled, ih ⟨hnodup.2, fun c hc => ?_, fun x hx => ?_⟩
        (hdistinct.rowsBut d.path), rfl⟩
      · obtain ⟨x, hx, hxpath, hx'⟩ := hrow c (List.mem_cons_of_mem _ hc)
        refine ⟨x, mem_rowsBut.mpr ⟨hx, fun heq => hnodup.1 ?_⟩, hxpath, hx'⟩
        exact List.mem_map.mpr ⟨c, hc, hxpath.symm.trans heq⟩
      · obtain ⟨hx, hne⟩ := mem_rowsBut.mp hx
        obtain ⟨c, hc, hcpath⟩ := hdraft x hx
        rcases List.mem_cons.mp hc with rfl | hc
        · exact absurd hcpath hne
        · exact ⟨c, hc, hcpath⟩

/-! ## Rows -/

/-- A subtree is settled if its leaves and its children are. -/
theorem settled_of_parts {rows : List Row} {r : Row} {d : Draft}
    (hleaves : leafEdits r d.attributes = .ok [])
    (hchildren : AllSettled rows (childrenIn rows r) d.children)
    (hdistinct : Distinct (childrenIn rows r)) : Settled rows r d := by
  obtain ⟨path, attributes, children⟩ := d
  exact reconcile_eq_ok_iff.mpr
    ⟨[], [], hleaves, hchildren.reconcileChildren hdistinct, rfl⟩

theorem leafEdits_eq_nil_iff {r : Row} {attributes : String} :
    leafEdits r attributes = .ok [] ↔
      ∃ old new, Leaves.parse r.attributes = some old ∧ Leaves.parse attributes = some new
        ∧ Leaves.same old new = true := by
  rw [leafEdits_eq_ok_iff]
  constructor
  · rintro ⟨old, new, hold, hnew, hnil⟩
    refine ⟨old, new, hold, hnew, ?_⟩
    by_contra hsame
    rw [if_neg hsame] at hnil
    cases hnil
  · rintro ⟨old, new, hold, hnew, hsame⟩
    exact ⟨old, new, hold, hnew, by rw [if_pos hsame]⟩

/-- The leaves and the children of a settled row. -/
theorem Settled.parts {rows : List Row} {r : Row} {d : Draft} (h : Settled rows r d) :
    leafEdits r d.attributes = .ok [] ∧ AllSettled rows (childrenIn rows r) d.children := by
  obtain ⟨path, attributes, children⟩ := d
  obtain ⟨own, below, hown, hbelow, hnil⟩ := reconcile_eq_ok_iff.mp h
  obtain ⟨rfl, rfl⟩ := List.append_eq_nil_iff.mp hnil.symm
  exact ⟨hown, allSettled_of_reconcileChildren hbelow⟩

/-- A child of a settled row is settled on the draft with its path. -/
theorem Settled.child {s : Store} (hs : s.Sound) {r q : Row} {d : Draft}
    (h : Settled s.rows r d) (hr : r ∈ s.rows) (hq : q ∈ childrenIn s.rows r) :
    ∃ c ∈ d.children, q.path = c.path ∧ Settled s.rows q c := by
  obtain ⟨-, -, hrow, hdraft⟩ := h.parts
  obtain ⟨c, hc, hpath⟩ := hdraft q hq
  obtain ⟨x, hx, hxpath, hsettled⟩ := hrow c hc
  rw [distinct_childrenIn hs hr q hq x hx (hpath.trans hxpath.symm)]
  exact ⟨c, hc, hxpath, hsettled⟩

theorem Draft.path_mem_paths (d : Draft) : d.path ∈ d.paths := by
  obtain ⟨path, attributes, children⟩ := d
  exact List.mem_cons_self

theorem Draft.paths_subset_of_child {d c : Draft} (hc : c ∈ d.children) : c.paths ⊆ d.paths := by
  obtain ⟨path, attributes, children⟩ := d
  intro p hp
  exact List.mem_cons_of_mem _ (mem_pathsOfAll.mpr ⟨c, hc, hp⟩)

/-- Below a settled row lie only rows of the draft. -/
theorem Settled.below {s : Store} (hs : s.Sound) {r q : Row} {d : Draft}
    (h : Settled s.rows r d) (hpath : r.path = d.path) (hq : AtOrBelow s.rows r q) :
    ∃ c : Draft, Settled s.rows q c ∧ q.path = c.path ∧ c.paths ⊆ d.paths := by
  induction hq with
  | self _ => exact ⟨d, h, hpath, List.Subset.refl _⟩
  | @step x q hx hq hparent ih =>
      obtain ⟨c, hsettled, -, hsub⟩ := ih
      obtain ⟨e, he, hepath, he'⟩ :=
        hsettled.child hs hx.mem (mem_childrenIn.mpr ⟨hq, hparent⟩)
      exact ⟨e, he', hepath, fun p hp => hsub (Draft.paths_subset_of_child he hp)⟩

/-! ## Rows elsewhere -/

section

variable {rows more : List Row} {low : Nat}

mutual
/-- Rows that hang under no row of a subtree do not change how it is
reconciled; the ids of the subtree are `low` or above. -/
theorem reconcile_append (hparents : ∀ c ∈ rows, ∀ p, c.parent = some p → p < c.id)
    (hmore : ∀ c ∈ more, ∀ x ∈ rows, low ≤ x.id → c.parent ≠ some x.id) :
    (d : Draft) → {r : Row} → r ∈ rows → low ≤ r.id →
    reconcile (rows ++ more) r d = reconcile rows r d
  | .mk path attributes children, r, hr, hlow => by
    have hnone : (more.filter fun c => c.parent = some r.id) = [] := by
      rw [List.filter_eq_nil_iff]
      intro c hc hparent
      exact hmore c hc r hr hlow (by simpa using hparent)
    have hstored : ∀ q ∈ rows.filter fun c => c.parent = some r.id, q ∈ rows ∧ low ≤ q.id := by
      intro q hq
      obtain ⟨hq, hparent⟩ := mem_childrenIn.mp hq
      have hlt := hparents q hq r.id hparent
      exact ⟨hq, by omega⟩
    rw [reconcile, reconcile, List.filter_append, hnone, List.append_nil,
      reconcileChildren_append hparents hmore children (some r.id) hstored]

theorem reconcileChildren_append (hparents : ∀ c ∈ rows, ∀ p, c.parent = some p → p < c.id)
    (hmore : ∀ c ∈ more, ∀ x ∈ rows, low ≤ x.id → c.parent ≠ some x.id) :
    (ds : List Draft) → (parent : Option Nat) → {stored : List Row} →
    (∀ q ∈ stored, q ∈ rows ∧ low ≤ q.id) →
    reconcileChildren (rows ++ more) parent stored ds = reconcileChildren rows parent stored ds
  | [], _, _, _ => rfl
  | d :: rest, parent, stored, hstored => by
    have hbut : ∀ q ∈ rowsBut stored d.path, q ∈ rows ∧ low ≤ q.id :=
      fun q hq => hstored q (mem_rowsBut.mp hq).1
    have hrest := reconcileChildren_append hparents hmore rest parent hbut
    rw [rowsBut] at hrest
    rw [reconcileChildren, reconcileChildren, hrest]
    cases hfind : stored.find? fun r => r.path = d.path with
    | none => rfl
    | some q =>
        obtain ⟨hq, hlow⟩ := hstored q (List.mem_of_find?_eq_some hfind)
        simp only
        rw [reconcile_append hparents hmore d hq hlow]
end

end

end DataTree
