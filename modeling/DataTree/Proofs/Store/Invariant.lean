import DataTree.Proofs.Store.Ancestry
import DataTree.Proofs.Store.Drafts
import DataTree.Proofs.Store.Effect
import Mathlib.Data.List.Pairwise

/-!
# What holds of the rows of a store

Lookups by id never ask for the owner, and reading follows parents without
asking whether they are there.  Both rest on the same invariant: every row
belongs to an owner that is there and hangs under a row of that owner, with
a smaller id and a shorter path, and no two rows answer to one id, or to one
path of one owner.

## Main definitions

* `Store.Sound` — the invariant.
* `Edit.Fits` — whether an edit can be carried out on a sound store, now and
  after any other edits.

## Main results

* `Store.Sound.removeRows`, `Store.Sound.effect` — removals and fitting edits
  keep a store sound.
* `Edit.Fits.effect` — an edit keeps fitting, whatever is carried out first.
-/

namespace DataTree

open DataTree.Path

namespace Store

/-- The rows of a store hang together. -/
structure Sound (s : Store) : Prop where
  /-- Ids grow along the table, so no two rows have one id. -/
  ids : s.rows.Pairwise fun q r => q.id < r.id
  /-- The next id is new. -/
  fresh : ∀ r ∈ s.rows, r.id ≤ s.lastRow
  /-- No two rows of an owner have one path. -/
  paths : s.rows.Pairwise fun q r => q.owner = r.owner → q.path ≠ r.path
  /-- The owner of a row is there. -/
  owned : ∀ r ∈ s.rows, s.hasOwner r.owner = true
  /-- The parent of a row is an earlier row of its owner, and its path is
  extended by that of the row. -/
  linked : ∀ r ∈ s.rows, ∀ p, r.parent = some p →
    ∃ q ∈ s.rows, q.id = p ∧ q.id < r.id ∧ q.owner = r.owner ∧ Extends q.path r.path
  /-- Paths are canonical, and none is the root marker. -/
  canonical : ∀ r ∈ s.rows, normalize r.path = .ok r.path ∧ isRoot r.path = false

/-- Whether a row at `path` can hang under `parent`: a row of the owner whose
path it extends, if there is to be one. -/
def Carries (s : Store) (owner : Nat) (parent : Option Nat) (path : String) : Prop :=
  ∀ p, parent = some p → ∃ q ∈ s.rows, q.id = p ∧ q.owner = owner ∧ Extends q.path path

theorem Carries.grow {s : Store} {owner : Nat} {parent : Option Nat} {path : String}
    (h : s.Carries owner parent path) (new : List Row) :
    (s.grow new).Carries owner parent path := by
  intro p hp
  obtain ⟨q, hq, hid, howner, hextends⟩ := h p hp
  exact ⟨q, List.mem_append_left new hq, hid, howner, hextends⟩

namespace Sound

variable {s : Store}

theorem empty : Store.empty.Sound where
  ids := .nil
  fresh := by simp [Store.empty]
  paths := .nil
  owned := by simp [Store.empty]
  linked := by simp [Store.empty]
  canonical := by simp [Store.empty]

theorem ordered (h : s.Sound) : Ordered s.rows where
  ids := h.ids
  parents := by
    intro r hr p hp
    obtain ⟨q, -, rfl, hlt, -, -⟩ := h.linked r hr p hp
    exact hlt

theorem eq_of_id (h : s.Sound) {q r : Row} (hq : q ∈ s.rows) (hr : r ∈ s.rows)
    (hid : q.id = r.id) : q = r :=
  h.ordered.eq_of_id hq hr hid

theorem nodup (h : s.Sound) : s.rows.Nodup :=
  h.ids.imp fun hlt heq => Nat.ne_of_lt hlt (congrArg Row.id heq)

theorem eq_of_path (h : s.Sound) {q r : Row} (hq : q ∈ s.rows) (hr : r ∈ s.rows)
    (howner : q.owner = r.owner) (hpath : q.path = r.path) : q = r := by
  by_contra hne
  have hpaths := h.paths
  have hsymm : Std.Symm fun q r : Row => q.owner = r.owner → q.path ≠ r.path :=
    ⟨fun a b hab howner => (hab howner.symm).symm⟩
  exact hpaths.forall hq hr hne howner hpath

/-- A row under another belongs to the same owner and extends its path. -/
theorem of_parent (h : s.Sound) {q r : Row} (hq : q ∈ s.rows) (hr : r ∈ s.rows)
    (hparent : r.parent = some q.id) : q.owner = r.owner ∧ Extends q.path r.path := by
  obtain ⟨x, hx, hid, -, howner, hextends⟩ := h.linked r hr q.id hparent
  obtain rfl := h.eq_of_id hx hq hid
  exact ⟨howner, hextends⟩

/-- So does a row anywhere below another. -/
theorem eq_or_extends (h : s.Sound) {a r : Row} (hbelow : AtOrBelow s.rows a r) :
    a.owner = r.owner ∧ (a = r ∨ Extends a.path r.path) := by
  induction hbelow with
  | self _ => exact ⟨rfl, .inl rfl⟩
  | @step q r hq hr hp ih =>
      obtain ⟨howner, hextends⟩ := h.of_parent hq.mem hr hp
      refine ⟨ih.1.trans howner, .inr ?_⟩
      rcases ih.2 with rfl | hax
      · exact hextends
      · exact hax.trans hextends

/-! ### Removing -/

theorem removeRows (h : s.Sound) (p : Row → Bool) : (s.removeRows p).1.Sound := by
  have hsub : (survivors p [] s.rows).Sublist s.rows := survivors_sublist p [] s.rows
  refine
    { ids := h.ids.sublist hsub
      fresh := fun r hr => h.fresh r (hsub.subset hr)
      paths := h.paths.sublist hsub
      owned := fun r hr => h.owned r (hsub.subset hr)
      linked := ?_
      canonical := fun r hr => h.canonical r (hsub.subset hr) }
  intro r hr g hg
  obtain ⟨hr, hstays⟩ := (mem_survivors_iff h.ordered).mp hr
  obtain ⟨q, hq, rfl, hlinked⟩ := h.linked r hr g hg
  refine ⟨q, (mem_survivors_iff h.ordered).mpr ⟨hq, ?_⟩, rfl, hlinked⟩
  rintro ⟨a, ha, hp⟩
  exact hstays ⟨a, ha.step hr hg, hp⟩

/-! ### New leaves -/

theorem map_leaves (h : s.Sound) {f : Row → Row}
    (hf : ∀ r, ∃ attributes, f r = { r with attributes := attributes }) :
    Sound { s with rows := s.rows.map f } := by
  have hid : ∀ r, (f r).id = r.id := fun r => by
    obtain ⟨attributes, hr⟩ := hf r
    rw [hr]
  have howner : ∀ r, (f r).owner = r.owner := fun r => by
    obtain ⟨attributes, hr⟩ := hf r
    rw [hr]
  have hpath : ∀ r, (f r).path = r.path := fun r => by
    obtain ⟨attributes, hr⟩ := hf r
    rw [hr]
  have hparent : ∀ r, (f r).parent = r.parent := fun r => by
    obtain ⟨attributes, hr⟩ := hf r
    rw [hr]
  refine
    { ids := ?_, fresh := ?_, paths := ?_, owned := ?_, linked := ?_, canonical := ?_ }
  · refine List.pairwise_map.mpr (h.ids.imp fun {q r} hlt => ?_)
    rw [hid, hid]
    exact hlt
  · intro r hr
    obtain ⟨q, hq, rfl⟩ := List.mem_map.mp hr
    rw [hid]
    exact h.fresh q hq
  · refine List.pairwise_map.mpr (h.paths.imp fun {q r} hne => ?_)
    rw [howner, howner, hpath, hpath]
    exact hne
  · intro r hr
    obtain ⟨q, hq, rfl⟩ := List.mem_map.mp hr
    rw [howner]
    exact h.owned q hq
  · intro r hr p hp
    obtain ⟨x, hx, rfl⟩ := List.mem_map.mp hr
    rw [hparent] at hp
    obtain ⟨q, hq, hlinked⟩ := h.linked x hx p hp
    refine ⟨f q, List.mem_map_of_mem hq, ?_⟩
    rw [hid, hid, howner, howner, hpath, hpath]
    exact hlinked
  · intro r hr
    obtain ⟨q, hq, rfl⟩ := List.mem_map.mp hr
    rw [hpath]
    exact h.canonical q hq

/-! ### Inserting -/

theorem grow_row (h : s.Sound) {r : Row} (hid : r.id = s.lastRow + 1)
    (howner : s.hasOwner r.owner = true) (hfree : r.path ∉ s.pathsOf r.owner)
    (hparent : s.Carries r.owner r.parent r.path)
    (hpath : normalize r.path = .ok r.path ∧ isRoot r.path = false) : (s.grow [r]).Sound := by
  have hcases : ∀ q ∈ (s.grow [r]).rows, q ∈ s.rows ∨ q = r := by
    intro q hq
    rcases List.mem_append.mp hq with hq | hq
    · exact .inl hq
    · exact .inr (List.mem_singleton.mp hq)
  have hnew : ∀ q ∈ s.rows, q.id < r.id := by
    intro q hq
    have := h.fresh q hq
    omega
  refine
    { ids := ?_, fresh := ?_, paths := ?_, owned := ?_, linked := ?_, canonical := ?_ }
  · refine List.pairwise_append.mpr ⟨h.ids, List.pairwise_singleton _ _, fun q hq x hx => ?_⟩
    rw [List.mem_singleton.mp hx]
    exact hnew q hq
  · intro q hq
    show q.id ≤ s.lastRow + 1
    rcases hcases q hq with hq | rfl
    · exact Nat.le_succ_of_le (h.fresh q hq)
    · exact Nat.le_of_eq hid
  · refine List.pairwise_append.mpr ⟨h.paths, List.pairwise_singleton _ _, fun q hq x hx => ?_⟩
    rw [List.mem_singleton.mp hx]
    intro howner' hpath'
    exact hfree (mem_pathsOf.mpr ⟨q, hq, howner', hpath'⟩)
  · intro q hq
    rw [hasOwner_grow]
    rcases hcases q hq with hq | rfl
    · exact h.owned q hq
    · exact howner
  · intro q hq p hp
    rcases hcases q hq with hq | rfl
    · obtain ⟨x, hx, hlinked⟩ := h.linked q hq p hp
      exact ⟨x, List.mem_append_left _ hx, hlinked⟩
    · obtain ⟨x, hx, rfl, hx'⟩ := hparent p hp
      exact ⟨x, List.mem_append_left _ hx, rfl, hnew x hx, hx'⟩
  · intro q hq
    rcases hcases q hq with hq | rfl
    · exact h.canonical q hq
    · exact hpath

mutual
theorem grow_rows {owner : Nat} : (d : Draft) → {s : Store} → {parent : Option Nat} →
    s.Sound → s.hasOwner owner = true → d.Sound → s.Carries owner parent d.path →
    firstTaken (s.pathsOf owner) d.paths = none →
      (s.grow (d.rows owner parent (s.lastRow + 1))).Sound
  | .mk path attributes children, s, parent => by
    intro h howner hd hparent hfree
    rw [Draft.paths, firstTaken] at hfree
    by_cases htaken : path ∈ s.pathsOf owner
    · rw [if_pos htaken] at hfree
      cases hfree
    · rw [if_neg htaken] at hfree
      let row : Row := ⟨s.lastRow + 1, owner, path, parent, attributes⟩
      have hrow : (s.grow [row]).Sound :=
        h.grow_row rfl howner htaken hparent ⟨hd.normalize_path, hd.isRoot_path⟩
      have hpaths : (s.grow [row]).pathsOf owner = s.pathsOf owner ++ [path] :=
        pathsOf_grow fun q hq => by rw [List.mem_singleton.mp hq]
      have hchildren := grow_rowsOfAll children hrow howner (fun c hc => hd.child hc)
        (fun c hc p hp => ⟨row, by simp [grow], Option.some.inj hp, rfl, hd.extends_path hc⟩)
        (by rw [hpaths]; exact hfree)
      rw [← grow_append] at hchildren
      exact hchildren

theorem grow_rowsOfAll {owner : Nat} : (ds : List Draft) → {s : Store} →
    {parent : Option Nat} → s.Sound → s.hasOwner owner = true → (∀ d ∈ ds, d.Sound) →
    (∀ d ∈ ds, s.Carries owner parent d.path) →
    firstTaken (s.pathsOf owner) (Draft.pathsOfAll ds) = none →
      (s.grow (Draft.rowsOfAll owner parent (s.lastRow + 1) ds)).Sound
  | [], s, parent => by
    intro h _ _ _ _
    rw [Draft.rowsOfAll, grow_nil]
    exact h
  | d :: rest, s, parent => by
    intro h howner hds hparent hfree
    rw [Draft.pathsOfAll, firstTaken_append, Option.or_eq_none_iff] at hfree
    let new := d.rows owner parent (s.lastRow + 1)
    have hd : (s.grow new).Sound :=
      grow_rows d h howner (hds d (by simp)) (hparent d (by simp)) hfree.1
    have hpaths : (s.grow new).pathsOf owner = s.pathsOf owner ++ d.paths := by
      rw [pathsOf_grow fun r hr => Draft.owner_of_mem_rows d hr, Draft.map_path_rows]
    have hlast : (s.grow new).lastRow + 1 = s.lastRow + 1 + d.size := by
      show s.lastRow + new.length + 1 = _
      rw [Draft.length_rows]
      omega
    have hrest := grow_rowsOfAll rest hd howner (fun c hc => hds c (List.mem_cons_of_mem _ hc))
      (fun c hc => (hparent c (List.mem_cons_of_mem _ hc)).grow new)
      (by rw [hpaths]; exact hfree.2)
    rw [hlast, ← grow_append] at hrest
    exact hrest
end

end Sound

end Store

/-! ## Edits that fit -/

/-- Whether an edit can be carried out on a sound store: a draft to insert is
sound, and extends the row it goes under, should that still be there. -/
def Edit.Fits (owner : Nat) (s : Store) : Edit → Prop
  | .remove .. | .update .. => True
  | .insert parent draft => draft.Sound ∧ ∀ p, parent = some p → p ≤ s.lastRow ∧
      ∀ q ∈ s.rows, q.id = p → q.owner = owner ∧ Extends q.path draft.path

namespace Draft

mutual
theorem le_id_of_mem_rows {owner : Nat} {parent : Option Nat} {next : Nat} {r : Row} :
    (d : Draft) → r ∈ d.rows owner parent next → next ≤ r.id
  | mk path attributes children => by
    intro h
    rw [rows] at h
    rcases List.mem_cons.mp h with rfl | h
    · exact Nat.le_refl _
    · exact Nat.le_of_succ_le (le_id_of_mem_rowsOfAll children h)

theorem le_id_of_mem_rowsOfAll {owner : Nat} {parent : Option Nat} {next : Nat} {r : Row} :
    (ds : List Draft) → r ∈ rowsOfAll owner parent next ds → next ≤ r.id
  | [] => by
    intro h
    cases h
  | d :: rest => by
    intro h
    rw [rowsOfAll] at h
    rcases List.mem_append.mp h with h | h
    · exact le_id_of_mem_rows d h
    · exact Nat.le_trans (Nat.le_add_right _ _) (le_id_of_mem_rowsOfAll rest h)
end

end Draft

namespace Store

/-- A later table holds rows of an earlier one, perhaps with other leaves,
and rows under new ids. -/
structure Follows (s s' : Store) : Prop where
  last : s.lastRow ≤ s'.lastRow
  rows : ∀ r ∈ s'.rows, r.id ≤ s.lastRow →
    ∃ q ∈ s.rows, q.id = r.id ∧ q.owner = r.owner ∧ q.path = r.path

theorem follows_effect (owner : Nat) (s : Store) (e : Edit) : s.Follows (e.effect owner s) := by
  cases e with
  | remove id path =>
      refine ⟨Nat.le_refl _, fun r hr _ => ⟨r, ?_, rfl, rfl, rfl⟩⟩
      exact (survivors_sublist _ _ _).subset hr
  | update id path expected attributes =>
      refine ⟨Nat.le_refl _, fun r hr _ => ?_⟩
      obtain ⟨q, hq, rfl⟩ := List.mem_map.mp hr
      refine ⟨q, hq, ?_⟩
      split <;> exact ⟨rfl, rfl, rfl⟩
  | insert parent draft =>
      refine ⟨Nat.le_add_right _ _, fun r hr hold => ⟨r, ?_, rfl, rfl, rfl⟩⟩
      rcases List.mem_append.mp hr with hr | hr
      · exact hr
      · have hnew := Draft.le_id_of_mem_rows draft hr
        omega

end Store

namespace Edit

variable {owner : Nat} {s s' : Store} {e : Edit}

theorem Fits.follows (h : e.Fits owner s) (hs : s.Follows s') : e.Fits owner s' := by
  cases e with
  | remove id path => trivial
  | update id path expected attributes => trivial
  | insert parent draft =>
      refine ⟨h.1, fun p hp => ?_⟩
      obtain ⟨hle, hrows⟩ := h.2 p hp
      refine ⟨Nat.le_trans hle hs.last, fun r hr hid => ?_⟩
      obtain ⟨q, hq, hqid, howner, hpath⟩ := hs.rows r hr (by omega)
      rw [← howner, ← hpath]
      exact hrows q hq (by omega)

/-- An edit keeps fitting, whatever is carried out first. -/
theorem Fits.effect (h : e.Fits owner s) (first : Edit) :
    e.Fits owner (first.effect owner s) :=
  h.follows (Store.follows_effect owner s first)

end Edit

/-- An edit that fits and neither faults nor conflicts keeps a store sound. -/
theorem Store.Sound.effect {owner : Nat} {s : Store} {e : Edit} (h : s.Sound)
    (hfit : e.Fits owner s) (hfault : ¬e.Faults owner s) (hfree : e.conflict? owner s = none) :
    (e.effect owner s).Sound := by
  cases e with
  | remove id path => exact h.removeRows _
  | update id path expected attributes =>
      refine h.map_leaves fun r => ?_
      split
      · exact ⟨attributes, rfl⟩
      · exact ⟨r.attributes, rfl⟩
  | insert parent draft =>
      have hfirst := Edit.conflict?_insert_eq_none_iff.mp hfree
      have hroot : draft.path ∉ s.pathsOf owner := by
        refine (firstTaken_eq_none_iff.mp hfirst).2 draft.path ?_
        obtain ⟨path, attributes, children⟩ := draft
        exact List.mem_cons_self
      obtain ⟨howner, hparent⟩ : s.hasOwner owner = true ∧ parent.all s.hasRow = true := by
        by_contra hmissing
        exact hfault ⟨hroot, hmissing⟩
      refine h.grow_rows draft howner hfit.1 (fun p hp => ?_) hfirst
      subst hp
      obtain ⟨q, hq, rfl⟩ := hasRow_iff.mp hparent
      exact ⟨q, hq, rfl, (hfit.2 q.id rfl).2 q hq rfl⟩

end DataTree
