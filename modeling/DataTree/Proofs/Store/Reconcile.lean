import DataTree.Proofs.Keyed
import DataTree.Proofs.Store.Invariant
import DataTree.Store.Reconcile

/-!
# The edits of a reconciliation

A reconciliation of a row with a draft is planned against the rows as they
are, and no edit it plans leaves the subtree of the row.  Reconciliations of
rows side by side therefore never meet.

## Main definitions

* `Edit.Planned` — an edit that names rows as they are.
* `Edit.Inside` — an edit about a row at or below another.

## Main results

* `reconcile_planned` — the edits of a reconciliation are planned, and inside
  the subtree reconciled.
-/

namespace DataTree

open DataTree.Path

/-! ## Edits and rows -/

/-- Whether an edit of an owner names rows as they are: the row it removes,
the row it updates with its leaves, or the row it inserts under. -/
def Edit.Planned (owner : Nat) (s : Store) : Edit → Prop
  | .remove id path => ∃ r ∈ s.rows, r.owner = owner ∧ r.id = id ∧ r.path = path
  | .update id path expected _ =>
    ∃ r ∈ s.rows, r.owner = owner ∧ r.id = id ∧ r.path = path ∧ r.attributes = expected
  | .insert parent draft => draft.Sound ∧ s.Carries owner parent draft.path

theorem Edit.Planned.fits {owner : Nat} {s : Store} {e : Edit} (h : e.Planned owner s)
    (hs : s.Sound) : e.Fits owner s := by
  cases e with
  | remove id path => trivial
  | update id path expected attributes => trivial
  | insert parent draft =>
      obtain ⟨hdraft, hparent⟩ := h
      refine ⟨hdraft, fun p hp => ?_⟩
      obtain ⟨q, hq, rfl, howner, hextends⟩ := hparent p hp
      refine ⟨hs.fresh q hq, fun r hr hid => ?_⟩
      rw [hs.eq_of_id hr hq hid]
      exact ⟨howner, hextends⟩

/-- The row an edit is about: the one it removes, updates or inserts under. -/
def Edit.place? : Edit → Option Nat
  | .remove id _ => some id
  | .update id _ _ _ => some id
  | .insert parent _ => parent

/-- Whether an edit is about a row at or below another. -/
def Edit.Inside (rows : List Row) (top : Row) (e : Edit) : Prop :=
  ∃ r, AtOrBelow rows top r ∧ e.place? = some r.id

theorem Edit.Inside.mono {rows : List Row} {top q : Row} {e : Edit} (h : e.Inside rows q)
    (htop : AtOrBelow rows top q) : e.Inside rows top := by
  obtain ⟨r, hr, hplace⟩ := h
  exact ⟨r, htop.trans hr, hplace⟩

/-! ## The parts of a reconciliation -/

theorem leafEdits_eq_ok_iff {r : Row} {attributes : String} {es : List Edit} :
    leafEdits r attributes = .ok es ↔
      ∃ old new, Leaves.parse r.attributes = some old ∧ Leaves.parse attributes = some new
        ∧ es = if Leaves.same old new then []
          else [.update r.id r.path r.attributes attributes] := by
  rw [leafEdits]
  split
  · rename_i old new hold hnew
    constructor
    · intro h
      cases h
      exact ⟨old, new, hold, hnew, rfl⟩
    · rintro ⟨old', new', hold', hnew', rfl⟩
      cases hold.symm.trans hold'
      cases hnew.symm.trans hnew'
      rfl
  · rename_i hnone
    constructor
    · intro h
      cases h
    · rintro ⟨old, new, hold, hnew, -⟩
      exact absurd hnew (hnone old new hold)

theorem eq_update_of_mem_leafEdits {r : Row} {attributes : String} {es : List Edit}
    (h : leafEdits r attributes = .ok es) {e : Edit} (he : e ∈ es) :
    e = .update r.id r.path r.attributes attributes := by
  obtain ⟨old, new, -, -, rfl⟩ := leafEdits_eq_ok_iff.mp h
  split at he
  · cases he
  · exact List.mem_singleton.mp he

/-- The rows that hang under a row. -/
def childrenIn (rows : List Row) (r : Row) : List Row :=
  rows.filter fun c => c.parent = some r.id

theorem mem_childrenIn {rows : List Row} {r c : Row} :
    c ∈ childrenIn rows r ↔ c ∈ rows ∧ c.parent = some r.id := by
  simp [childrenIn]

theorem reconcile_eq_ok_iff {rows : List Row} {r : Row} {path attributes : String}
    {children : List Draft} {es : List Edit} :
    reconcile rows r (.mk path attributes children) = .ok es ↔
      ∃ own below, leafEdits r attributes = .ok own
        ∧ reconcileChildren rows (some r.id) (childrenIn rows r) children = .ok below
        ∧ es = own ++ below := by
  rw [reconcile, bind_eq_ok_iff]
  constructor
  · rintro ⟨own, hown, h⟩
    obtain ⟨below, hbelow, h⟩ := bind_eq_ok_iff.mp h
    cases h
    exact ⟨own, below, hown, hbelow, rfl⟩
  · rintro ⟨own, below, hown, hbelow, rfl⟩
    exact ⟨own, hown, bind_eq_ok_iff.mpr ⟨below, hbelow, rfl⟩⟩

/-- The row among some that has a path. -/
def rowWith? (stored : List Row) (path : String) : Option Row :=
  stored.find? fun r => r.path = path

theorem rowWith?_eq_some {stored : List Row} {path : String} {q : Row}
    (h : rowWith? stored path = some q) : q ∈ stored ∧ q.path = path :=
  ⟨List.mem_of_find?_eq_some h, by simpa using List.find?_some h⟩

theorem rowWith?_eq_none_iff {stored : List Row} {path : String} :
    rowWith? stored path = none ↔ ∀ q ∈ stored, q.path ≠ path := by
  simp [rowWith?]

/-- The rows among some that have other paths. -/
def rowsBut (stored : List Row) (path : String) : List Row :=
  stored.filter fun r => r.path ≠ path

theorem mem_rowsBut {stored : List Row} {path : String} {q : Row} :
    q ∈ rowsBut stored path ↔ q ∈ stored ∧ q.path ≠ path := by
  simp [rowsBut]

theorem reconcileChildren_cons_of_stored {rows stored : List Row} {parent : Option Nat}
    {d : Draft} {rest : List Draft} {es : List Edit} {q : Row}
    (hq : rowWith? stored d.path = some q) :
    reconcileChildren rows parent stored (d :: rest) = .ok es ↔
      ∃ own more, reconcile rows q d = .ok own
        ∧ reconcileChildren rows parent (rowsBut stored d.path) rest = .ok more
        ∧ es = own ++ more := by
  rw [reconcileChildren]
  rw [rowWith?] at hq
  rw [hq, bind_eq_ok_iff]
  constructor
  · rintro ⟨own, hown, h⟩
    obtain ⟨more, hmore, h⟩ := bind_eq_ok_iff.mp h
    cases h
    exact ⟨own, more, hown, hmore, rfl⟩
  · rintro ⟨own, more, hown, hmore, rfl⟩
    exact ⟨own, hown, bind_eq_ok_iff.mpr ⟨more, hmore, rfl⟩⟩

theorem reconcileChildren_cons_of_new {rows stored : List Row} {parent : Option Nat}
    {d : Draft} {rest : List Draft} {es : List Edit}
    (hq : rowWith? stored d.path = none) :
    reconcileChildren rows parent stored (d :: rest) = .ok es ↔
      ∃ more, reconcileChildren rows parent (rowsBut stored d.path) rest = .ok more
        ∧ es = .insert parent d :: more := by
  rw [reconcileChildren]
  rw [rowWith?] at hq
  rw [hq, bind_eq_ok_iff]
  constructor
  · rintro ⟨own, hown, h⟩
    obtain ⟨more, hmore, h⟩ := bind_eq_ok_iff.mp h
    cases hown
    cases h
    exact ⟨more, hmore, rfl⟩
  · rintro ⟨more, hmore, rfl⟩
    exact ⟨_, rfl, bind_eq_ok_iff.mpr ⟨more, hmore, rfl⟩⟩

theorem eq_remove_of_mem_removeEdits {rows : List Row} {e : Edit} (h : e ∈ removeEdits rows) :
    ∃ r ∈ rows, e = .remove r.id r.path := by
  obtain ⟨⟨path, id⟩, hentry, rfl⟩ := List.mem_map.mp h
  rw [← (Keyed.sorted_ofList _).find?_eq_some_iff, Keyed.find?_ofList] at hentry
  obtain ⟨r, hr, heq⟩ := List.mem_map.mp (Keyed.mem_of_lastAt hentry)
  cases heq
  exact ⟨r, hr, rfl⟩

/-! ## Where a reconciliation stays -/

section

variable {owner : Nat} {s : Store}

theorem owner_of_child (hs : s.Sound) {r q : Row} (hr : r ∈ s.rows)
    (hq : q ∈ childrenIn s.rows r) : q.owner = r.owner := by
  obtain ⟨hq, hparent⟩ := mem_childrenIn.mp hq
  exact (hs.of_parent hr hq hparent).1.symm

/-- The rows of an owner under one of its rows are all that hang there. -/
theorem childRows_eq (hs : s.Sound) {r : Row} (hr : r ∈ s.rows) (howner : r.owner = owner) :
    s.childRows owner (some r.id) = childrenIn s.rows r := by
  refine List.filter_congr fun c hc => ?_
  rw [Bool.eq_iff_iff, Bool.and_eq_true, decide_eq_true_eq, decide_eq_true_eq,
    and_iff_right_iff_imp]
  intro hparent
  rw [← howner]
  exact (hs.of_parent hr hc hparent).1.symm

theorem carries_child {r : Row} (hr : r ∈ s.rows) (howner : r.owner = owner) {d c : Draft}
    (hpath : r.path = d.path) (hd : d.Sound) (hc : c ∈ d.children) :
    s.Carries owner (some r.id) c.path := by
  intro p hp
  refine ⟨r, hr, Option.some.inj hp, howner, ?_⟩
  rw [hpath]
  exact hd.extends_path hc

mutual
theorem reconcile_planned (hs : s.Sound) : (d : Draft) → {r : Row} → {es : List Edit} →
    r ∈ s.rows → r.owner = owner → r.path = d.path → d.Sound →
    reconcile s.rows r d = .ok es → ∀ e ∈ es, e.Planned owner s ∧ e.Inside s.rows r
  | .mk path attributes children, r, es => by
    intro hr howner hpath hd h e he
    obtain ⟨own, below, hown, hbelow, rfl⟩ := reconcile_eq_ok_iff.mp h
    rcases List.mem_append.mp he with he | he
    · rw [eq_update_of_mem_leafEdits hown he]
      exact ⟨⟨r, hr, howner, rfl, rfl, rfl⟩, r, .self hr, rfl⟩
    · have hstored : ∀ q ∈ childrenIn s.rows r, q ∈ s.rows ∧ q.owner = owner := by
        exact fun q hq => ⟨(mem_childrenIn.mp hq).1, (owner_of_child hs hr hq).trans howner⟩
      have hdrafts : ∀ c ∈ children, c.Sound ∧ s.Carries owner (some r.id) c.path := by
        intro c hc
        refine ⟨hd.child hc, fun p hp => ⟨r, hr, Option.some.inj hp, howner, ?_⟩⟩
        rw [hpath]
        exact hd.extends_path hc
      obtain ⟨hplanned, hplace⟩ := reconcileChildren_planned hs children hstored hdrafts hbelow e he
      refine ⟨hplanned, ?_⟩
      rcases hplace with ⟨q, hq, hinside⟩ | ⟨c, -, rfl⟩
      · obtain ⟨hq, hparent⟩ := mem_childrenIn.mp hq
        exact hinside.mono (.step (.self hr) hq hparent)
      · exact ⟨r, .self hr, rfl⟩

theorem reconcileChildren_planned (hs : s.Sound) : (ds : List Draft) → {parent : Option Nat} →
    {stored : List Row} → {es : List Edit} → (∀ q ∈ stored, q ∈ s.rows ∧ q.owner = owner) →
    (∀ d ∈ ds, d.Sound ∧ s.Carries owner parent d.path) →
    reconcileChildren s.rows parent stored ds = .ok es → ∀ e ∈ es, e.Planned owner s
      ∧ ((∃ q ∈ stored, e.Inside s.rows q) ∨ ∃ d ∈ ds, e = .insert parent d)
  | [], parent, stored, es => by
    intro hstored _ h e he
    cases h
    obtain ⟨q, hq, rfl⟩ := eq_remove_of_mem_removeEdits he
    obtain ⟨hrow, howner⟩ := hstored q hq
    exact ⟨⟨q, hrow, howner, rfl, rfl⟩, .inl ⟨q, hq, q, .self hrow, rfl⟩⟩
  | d :: rest, parent, stored, es => by
    intro hstored hds h e he
    have hmore : ∀ {more : List Edit},
        reconcileChildren s.rows parent (rowsBut stored d.path) rest = .ok more → e ∈ more →
        e.Planned owner s ∧ ((∃ q ∈ stored, e.Inside s.rows q)
          ∨ ∃ c ∈ d :: rest, e = .insert parent c) := by
      intro more hmore he
      obtain ⟨hplanned, hplace⟩ := reconcileChildren_planned hs rest
        (fun q hq => hstored q (mem_rowsBut.mp hq).1)
        (fun c hc => hds c (List.mem_cons_of_mem _ hc)) hmore e he
      refine ⟨hplanned, ?_⟩
      rcases hplace with ⟨q, hq, hinside⟩ | ⟨c, hc, heq⟩
      · exact .inl ⟨q, (mem_rowsBut.mp hq).1, hinside⟩
      · exact .inr ⟨c, List.mem_cons_of_mem _ hc, heq⟩
    cases hfind : rowWith? stored d.path with
    | some q =>
        obtain ⟨own, more, hown, hrest, rfl⟩ := (reconcileChildren_cons_of_stored hfind).mp h
        rcases List.mem_append.mp he with he | he
        · obtain ⟨hq, hpath⟩ := rowWith?_eq_some hfind
          obtain ⟨hplanned, hinside⟩ := reconcile_planned hs d (hstored q hq).1 (hstored q hq).2
            hpath (hds d List.mem_cons_self).1 hown e he
          exact ⟨hplanned, .inl ⟨q, hq, hinside⟩⟩
        · exact hmore hrest he
    | none =>
        obtain ⟨more, hrest, rfl⟩ := (reconcileChildren_cons_of_new hfind).mp h
        rcases List.mem_cons.mp he with rfl | he
        · exact ⟨hds d List.mem_cons_self, .inr ⟨d, List.mem_cons_self, rfl⟩⟩
        · exact hmore hrest he
end

end

end DataTree
