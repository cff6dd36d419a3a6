import DataTree.Proofs.Store.Reading
import DataTree.Proofs.Store.Trace

/-!
# Subtrees just inserted

A draft is inserted as one block of rows.  The rows of the block hang under
each other as the draft is nested, and no later block hangs anything under
them, so a subtree that was inserted stays settled on its draft while other
drafts are inserted.

## Main definitions

* `Draft.top` — the row of the draft itself.
* `Planted` — a store after insertions that were all done.

## Main results

* `settled_top`, `settled_topsOf` — the blocks of drafts are settled on them.
* `planted_inTurn` — insertions that are done leave settled subtrees.
-/

namespace DataTree

/-! ## Blocks -/

namespace Draft

/-- The row that the draft itself becomes. -/
def top (owner : Nat) (parent : Option Nat) (next : Nat) (d : Draft) : Row :=
  ⟨next, owner, d.path, parent, d.attributes⟩

/-- The rows that drafts under one parent become themselves. -/
def topsOf (owner : Nat) (parent : Option Nat) (next : Nat) : List Draft → List Row
  | [] => []
  | d :: rest => d.top owner parent next :: topsOf owner parent (next + d.size) rest

theorem rows_eq (owner : Nat) (parent : Option Nat) (next : Nat) (d : Draft) :
    d.rows owner parent next
      = d.top owner parent next :: rowsOfAll owner (some next) (next + 1) d.children := by
  obtain ⟨path, attributes, children⟩ := d
  rfl

mutual
theorem lt_id_of_mem_rows {owner : Nat} {parent : Option Nat} {next : Nat} {r : Row} :
    (d : Draft) → r ∈ d.rows owner parent next → r.id < next + d.size
  | mk path attributes children => by
    intro h
    rw [rows] at h
    rw [size]
    rcases List.mem_cons.mp h with rfl | h
    · show next < _
      omega
    · have := lt_id_of_mem_rowsOfAll children h
      omega

theorem lt_id_of_mem_rowsOfAll {owner : Nat} {parent : Option Nat} {next : Nat} {r : Row} :
    (ds : List Draft) → r ∈ rowsOfAll owner parent next ds → r.id < next + sizeOfAll ds
  | [] => by
    intro h
    cases h
  | d :: rest => by
    intro h
    rw [rowsOfAll] at h
    rw [sizeOfAll]
    rcases List.mem_append.mp h with h | h
    · have := lt_id_of_mem_rows d h
      omega
    · have := lt_id_of_mem_rowsOfAll rest h
      omega
end

mutual
/-- The rows of a block hang under its parent or under each other. -/
theorem parent_of_mem_rows {owner : Nat} {parent : Option Nat} {next : Nat} {r : Row} :
    (d : Draft) → r ∈ d.rows owner parent next →
    r.parent = parent ∨ ∃ g, r.parent = some g ∧ next ≤ g
  | mk path attributes children => by
    intro h
    rw [rows] at h
    rcases List.mem_cons.mp h with rfl | h
    · exact .inl rfl
    · rcases parent_of_mem_rowsOfAll children h with hparent | ⟨g, hparent, hle⟩
      · exact .inr ⟨next, hparent, Nat.le_refl _⟩
      · exact .inr ⟨g, hparent, by omega⟩

theorem parent_of_mem_rowsOfAll {owner : Nat} {parent : Option Nat} {next : Nat} {r : Row} :
    (ds : List Draft) → r ∈ rowsOfAll owner parent next ds →
    r.parent = parent ∨ ∃ g, r.parent = some g ∧ next ≤ g
  | [] => by
    intro h
    cases h
  | d :: rest => by
    intro h
    rw [rowsOfAll] at h
    rcases List.mem_append.mp h with h | h
    · exact parent_of_mem_rows d h
    · rcases parent_of_mem_rowsOfAll rest h with hparent | ⟨g, hparent, hle⟩
      · exact .inl hparent
      · exact .inr ⟨g, hparent, by omega⟩
end

mutual
theorem parent_lt_of_mem_rows {owner : Nat} {parent : Option Nat} {next : Nat} {r : Row} :
    (d : Draft) → (∀ g, parent = some g → g < next) → r ∈ d.rows owner parent next →
    ∀ g, r.parent = some g → g < r.id
  | mk path attributes children => by
    intro hparent h
    rw [rows] at h
    rcases List.mem_cons.mp h with rfl | h
    · exact hparent
    · refine parent_lt_of_mem_rowsOfAll children (fun g hg => ?_) h
      cases hg
      exact Nat.lt_succ_self next

theorem parent_lt_of_mem_rowsOfAll {owner : Nat} {parent : Option Nat} {next : Nat} {r : Row} :
    (ds : List Draft) → (∀ g, parent = some g → g < next) → r ∈ rowsOfAll owner parent next ds →
    ∀ g, r.parent = some g → g < r.id
  | [] => by
    intro _ h
    cases h
  | d :: rest => by
    intro hparent h
    rw [rowsOfAll] at h
    rcases List.mem_append.mp h with h | h
    · exact parent_lt_of_mem_rows d hparent h
    · exact parent_lt_of_mem_rowsOfAll rest
        (fun g hg => Nat.lt_of_lt_of_le (hparent g hg) (Nat.le_add_right _ _)) h
end

/-- Below the rows of the children themselves no row hangs under their
parent. -/
theorem filter_rowsOfAll {owner next : Nat} {parent : Option Nat}
    (hparent : ∀ g, parent = some g → g < next) (ds : List Draft) :
    ((rowsOfAll owner parent next ds).filter fun r => r.parent = parent)
      = topsOf owner parent next ds := by
  induction ds generalizing next with
  | nil => rfl
  | cons d rest ih =>
      have hbelow : ((rowsOfAll owner (some next) (next + 1) d.children).filter
          fun r => r.parent = parent) = [] := by
        rw [List.filter_eq_nil_iff]
        intro r hr hsame
        rw [decide_eq_true_eq] at hsame
        rcases parent_of_mem_rowsOfAll d.children hr with h | ⟨g, h, hle⟩
        · have := hparent next (hsame.symm.trans h)
          omega
        · have := hparent g (hsame.symm.trans h)
          omega
      have htop : (d.top owner parent next).parent = parent := rfl
      rw [rowsOfAll, List.filter_append, rows_eq,
        List.filter_cons_of_pos (by simpa using htop), hbelow,
        ih fun g hg => Nat.lt_of_lt_of_le (hparent g hg) (Nat.le_add_right _ _), topsOf]
      rfl

theorem map_path_topsOf (owner : Nat) (parent : Option Nat) (next : Nat) (ds : List Draft) :
    (topsOf owner parent next ds).map Row.path = ds.map path := by
  induction ds generalizing next with
  | nil => rfl
  | cons d rest ih =>
      rw [topsOf, List.map_cons, List.map_cons, ih]
      rfl

end Draft

/-! ## Blocks are settled -/

theorem nodup_map_path {ds : List Draft} (h : (Draft.pathsOfAll ds).Nodup) :
    (ds.map Draft.path).Nodup := by
  induction ds with
  | nil => exact List.nodup_nil
  | cons d rest ih =>
      rw [Draft.pathsOfAll, List.nodup_append] at h
      rw [List.map_cons, List.nodup_cons]
      refine ⟨fun hmem => ?_, ih h.2.1⟩
      obtain ⟨c, hc, hpath⟩ := List.mem_map.mp hmem
      refine h.2.2 d.path d.path_mem_paths c.path ?_ hpath.symm
      exact Draft.mem_pathsOfAll.mpr ⟨c, hc, c.path_mem_paths⟩

/-- Whether rows stand below an id and hang under earlier ones. -/
def Under (next : Nat) (base : List Row) : Prop :=
  ∀ r ∈ base, r.id < next ∧ ∀ g, r.parent = some g → g < r.id

theorem Under.rows {base : List Row} {next : Nat} (h : Under next base) {parent : Option Nat}
    (hparent : ∀ g, parent = some g → g < next) (owner : Nat) (d : Draft) :
    Under (next + d.size) (base ++ d.rows owner parent next) := by
  intro r hr
  rcases List.mem_append.mp hr with hr | hr
  · exact ⟨Nat.lt_of_lt_of_le (h r hr).1 (Nat.le_add_right _ _), (h r hr).2⟩
  · exact ⟨d.lt_id_of_mem_rows hr, d.parent_lt_of_mem_rows hparent hr⟩

theorem Under.top {base : List Row} {next : Nat} (h : Under next base) {parent : Option Nat}
    (hparent : ∀ g, parent = some g → g < next) (owner : Nat) (d : Draft) :
    Under (next + 1) (base ++ [d.top owner parent next]) := by
  intro r hr
  rcases List.mem_append.mp hr with hr | hr
  · exact ⟨Nat.lt_succ_of_lt (h r hr).1, (h r hr).2⟩
  · rw [List.mem_singleton.mp hr]
    exact ⟨Nat.lt_succ_self next, hparent⟩

/-- Rows that stand below an id have no parent with that id. -/
theorem Under.filter_parent {base : List Row} {next : Nat} (h : Under next base) {g : Nat}
    (hg : next ≤ g + 1) : (base.filter fun c => c.parent = some g) = [] := by
  rw [List.filter_eq_nil_iff]
  intro c hc hparent
  obtain ⟨hid, hlt⟩ := h c hc
  have := hlt g (by simpa using hparent)
  omega

mutual
/-- After its block a draft is settled under the first row of the block. -/
theorem settled_top {owner : Nat} : (d : Draft) → {base : List Row} → {parent : Option Nat} →
    {next : Nat} → Under next base → (∀ g, parent = some g → g < next) → d.Exact →
    d.paths.Nodup → Settled (base ++ d.rows owner parent next) (d.top owner parent next) d
  | .mk path attributes children, base, parent, next => by
    intro hbase hparent hexact hnodup
    let top : Row := ⟨next, owner, path, parent, attributes⟩
    have hunder : Under (next + 1) (base ++ [top]) :=
      hbase.top hparent owner (.mk path attributes children)
    have hrows : base ++ (Draft.mk path attributes children).rows owner parent next
        = (base ++ [top]) ++ Draft.rowsOfAll owner (some next) (next + 1) children := by
      rw [Draft.rows, List.append_assoc, List.singleton_append]
    have hbelow : ∀ g, some next = some g → g < next + 1 := by
      intro g hg
      cases hg
      exact Nat.lt_succ_self next
    have hchildren : childrenIn ((base ++ [top])
        ++ Draft.rowsOfAll owner (some next) (next + 1) children) top
          = Draft.topsOf owner (some next) (next + 1) children := by
      rw [childrenIn, List.filter_append, hunder.filter_parent (Nat.le_refl _), List.nil_append]
      exact Draft.filter_rowsOfAll hbelow children
    have hnodup' := (List.nodup_cons.mp hnodup).2
    have hall := AllSettled.of_forall₂ (nodup_map_path hnodup')
      (settled_topsOf owner children hunder hbelow (fun d hd => hexact.child hd) hnodup')
    show Settled _ top _
    rw [hrows]
    refine settled_of_parts ?_ ?_ ?_
    · cases hexact with
      | mk hparse _ _ =>
          exact leafEdits_eq_nil_iff.mpr ⟨_, _, hparse, hparse, Leaves.same_self _⟩
    · rw [hchildren]
      exact hall
    · rw [hchildren]
      have hpaths := nodup_map_path hnodup'
      rw [← Draft.map_path_topsOf owner (some next) (next + 1)] at hpaths
      exact fun q hq r hr => List.inj_on_of_nodup_map hpaths hq hr

/-- So are the drafts of several blocks, one by one. -/
theorem settled_topsOf (owner : Nat) : (ds : List Draft) → {base : List Row} →
    {parent : Option Nat} → {next : Nat} → Under next base →
    (∀ g, parent = some g → g < next) → (∀ d ∈ ds, d.Exact) → (Draft.pathsOfAll ds).Nodup →
    List.Forall₂ (fun q d => q.path = d.path
        ∧ Settled (base ++ Draft.rowsOfAll owner parent next ds) q d)
      (Draft.topsOf owner parent next ds) ds
  | [], base, parent, next => by
    intro _ _ _ _
    exact .nil
  | d :: rest, base, parent, next => by
    intro hbase hparent hexact hnodup
    rw [Draft.pathsOfAll, List.nodup_append] at hnodup
    have hunder := hbase.rows hparent owner d
    have hd : Settled (base ++ d.rows owner parent next) (d.top owner parent next) d :=
      settled_top d hbase hparent (hexact d List.mem_cons_self) hnodup.1
    have hrest := settled_topsOf owner rest hunder
      (fun g hg => Nat.lt_of_lt_of_le (hparent g hg) (Nat.le_add_right _ _))
      (fun c hc => hexact c (List.mem_cons_of_mem _ hc)) hnodup.2.1
    -- the blocks of the other drafts hang under the parent and under themselves
    have happend : Settled ((base ++ d.rows owner parent next)
        ++ Draft.rowsOfAll owner parent (next + d.size) rest) (d.top owner parent next) d := by
      rw [Settled, reconcile_append (fun c hc => (hunder c hc).2) _ d _ (Nat.le_refl next)]
      · exact hd
      · intro c hc x hx hlow hcx
        have hx' := (hunder x hx).1
        rcases Draft.parent_of_mem_rowsOfAll rest hc with h | ⟨g, h, hle⟩
        · have := hparent x.id (h.symm.trans hcx)
          omega
        · cases hcx.symm.trans h
          omega
      · rw [Draft.rows_eq]
        exact List.mem_append_right _ List.mem_cons_self
    rw [Draft.rowsOfAll, ← List.append_assoc, Draft.topsOf]
    exact .cons ⟨rfl, happend⟩ hrest
end

/-! ## Insertions -/

/-- The path of the draft that an edit inserts. -/
def Edit.newPath? : Edit → Option String
  | .insert _ d => some d.path
  | _ => none

/-- A store `t` in which all insertions among the edits `done` of a plan for
`s` were carried out, after everything else. -/
structure Planted (owner : Nat) (s : Store) (done : List Edit) (t : Store) : Prop where
  /-- Each insertion has left a settled subtree. -/
  top : ∀ parent d, Edit.insert parent d ∈ done → ∃ r ∈ t.rows, s.lastRow < r.id
    ∧ r.owner = owner ∧ r.parent = parent ∧ r.path = d.path ∧ Settled t.rows r d
  /-- A new row hangs under another, or was inserted itself. -/
  new : ∀ r ∈ t.rows, s.lastRow < r.id →
    (∃ g, r.parent = some g ∧ s.lastRow < g)
      ∨ ∃ d, Edit.insert r.parent d ∈ done ∧ r.path = d.path ∧ r.owner = owner
  /-- No two drafts inserted have one path. -/
  distinct : (done.filterMap Edit.newPath?).Nodup

namespace Planted

variable {owner : Nat} {s t : Store} {done : List Edit}

/-- Before the first insertion there is no new row. -/
theorem of_not_insert (hdone : ∀ e ∈ done, e.isInsert = false) (ht : t.Sound)
    (hlast : t.lastRow = s.lastRow) : Planted owner s done t where
  top := by
    intro parent d hd
    cases hdone _ hd
  new := by
    intro r hr hnew
    have := ht.fresh r hr
    omega
  distinct := by
    have hnil : done.filterMap Edit.newPath? = [] := by
      rw [List.filterMap_eq_nil_iff]
      intro e he
      cases e with
      | remove id path => rfl
      | update id path expected attributes => rfl
      | insert parent d => cases hdone _ he
    rw [hnil]
    exact List.nodup_nil

/-- One more insertion. -/
theorem insert (h : Planted owner s done t) (ht : t.Sound) (hlast : s.lastRow ≤ t.lastRow)
    {parent : Option Nat} {d : Draft} (hparent : ∀ g, parent = some g → g ≤ s.lastRow)
    (hexact : d.Exact) (hfree : (Edit.insert parent d).conflict? owner t = none) :
    Planted owner s (.insert parent d :: done) ((Edit.insert parent d).effect owner t) := by
  obtain ⟨hnodup, hnew⟩ := firstTaken_eq_none_iff.mp (Edit.conflict?_insert_eq_none_iff.mp hfree)
  have hunder : Under (t.lastRow + 1) t.rows :=
    fun r hr => ⟨Nat.lt_succ_of_le (ht.fresh r hr), ht.ordered.parents r hr⟩
  have hparent' : ∀ g, parent = some g → g < t.lastRow + 1 := by
    intro g hg
    have := hparent g hg
    omega
  have htop : d.top owner parent (t.lastRow + 1) ∈ d.rows owner parent (t.lastRow + 1) := by
    rw [Draft.rows_eq]
    exact List.mem_cons_self
  refine { top := ?_, new := ?_, distinct := ?_ }
  · intro parent' d' hd'
    rcases List.mem_cons.mp hd' with heq | hd'
    · cases heq
      exact ⟨_, List.mem_append_right _ htop, Nat.lt_succ_of_le hlast, rfl, rfl, rfl,
        settled_top d hunder hparent' hexact hnodup⟩
    · obtain ⟨r, hr, hid, howner, hrparent, hpath, hsettled⟩ := h.top parent' d' hd'
      refine ⟨r, List.mem_append_left _ hr, hid, howner, hrparent, hpath, ?_⟩
      show reconcile (t.rows ++ d.rows owner parent (t.lastRow + 1)) r d' = .ok []
      rw [reconcile_append (fun c hc => (hunder c hc).2) _ d' hr (Nat.succ_le_of_lt hid)]
      · exact hsettled
      · intro c hc x hx hlow hcx
        have hx' := ht.fresh x hx
        rcases Draft.parent_of_mem_rows d hc with hp | ⟨g, hp, hle⟩
        · have := hparent x.id (hp.symm.trans hcx)
          omega
        · cases hcx.symm.trans hp
          omega
  · intro r hr hid
    rcases List.mem_append.mp hr with hr | hr
    · rcases h.new r hr hid with hbelow | ⟨d', hd', hpath⟩
      · exact .inl hbelow
      · exact .inr ⟨d', List.mem_cons_of_mem _ hd', hpath⟩
    · rw [Draft.rows_eq] at hr
      rcases List.mem_cons.mp hr with rfl | hr
      · exact .inr ⟨d, List.mem_cons_self, rfl, rfl⟩
      · rcases Draft.parent_of_mem_rowsOfAll d.children hr with hp | ⟨g, hp, hle⟩
        · exact .inl ⟨_, hp, Nat.lt_succ_of_le hlast⟩
        · exact .inl ⟨g, hp, by omega⟩
  · show (d.path :: done.filterMap Edit.newPath?).Nodup
    rw [List.nodup_cons]
    refine ⟨fun hmem => ?_, h.distinct⟩
    obtain ⟨e, he, hpath⟩ := List.mem_filterMap.mp hmem
    cases e with
    | remove id path => cases hpath
    | update id path expected attributes => cases hpath
    | insert parent' d' =>
        obtain ⟨r, hr, -, howner, -, hrpath, -⟩ := h.top parent' d' he
        have hsame : d'.path = d.path := Option.some.inj hpath
        exact hnew d.path d.path_mem_paths
          (Store.mem_pathsOf.mpr ⟨r, hr, howner, hrpath.trans hsame⟩)

end Planted

/-- Insertions of a plan that all took effect leave settled subtrees. -/
theorem planted_inTurn {owner : Nat} {s t : Store} {done inserts : List Edit} (hs : s.Sound)
    (htraces : Traces s done t) (h : Planted owner s done t)
    (hinserts : ∀ e ∈ inserts, ∃ parent d, e = .insert parent d ∧ d.Exact)
    (hplanned : ∀ e ∈ inserts, e.Planned owner s) (hunfaulted : Unfaulted owner inserts t)
    (hnone : (inTurn owner inserts t).skipped = []) :
    Planted owner s (inserts.reverse ++ done) (inTurn owner inserts t).store := by
  induction inserts generalizing done t with
  | nil => exact h
  | cons e rest ih =>
      obtain ⟨hfault, hunfaulted⟩ := hunfaulted
      have he := hplanned e List.mem_cons_self
      cases hconflict : e.conflict? owner t with
      | some conflict =>
          rw [inTurn_cons_of_conflict hconflict] at hnone
          cases hnone
      | none =>
          rw [turn_of_free hconflict] at hunfaulted
          rw [inTurn_cons_of_free hconflict] at hnone ⊢
          rw [List.reverse_cons, List.append_assoc]
          refine ih (htraces.effect hs he hfault hconflict) ?_
            (fun f hf => hinserts f (List.mem_cons_of_mem e hf))
            (fun f hf => hplanned f (List.mem_cons_of_mem e hf)) hunfaulted hnone
          obtain ⟨parent, d, rfl, hexact⟩ := hinserts e List.mem_cons_self
          refine h.insert htraces.sound htraces.last (fun g hg => ?_) hexact hconflict
          obtain ⟨q, hq, rfl, -⟩ := he.2 g hg
          exact hs.fresh q hq

end DataTree
