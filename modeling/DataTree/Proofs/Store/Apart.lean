import DataTree.Proofs.Store.Plan
import DataTree.Proofs.Store.Trace

/-!
# Edits that keep out of each other's way

Two edits in different subtrees do not spoil each other.  The edits of one
reconciliation are in different subtrees, or about a row and the rows below
it, so none of them spoils another.  Those of several reconciliations do as
well, unless one of the rows reconciled is at or below another.

## Main definitions

* `Apart` — neither of two edits spoils the other.
* `Unnested` — neither of two rows is at or below the other.

## Main results

* `reconcile_apart`, `updateEdits_apart`, `batchEdits_apart` — the edits of
  one plan keep apart.
* `not_spoils_inOrder` — so none spoils one that comes after it.
-/

namespace DataTree

/-- Neither of two edits spoils the other. -/
def Apart (rows : List Row) (e f : Edit) : Prop := ¬e.Spoils rows f ∧ ¬f.Spoils rows e

/-- Neither of two rows is at or below the other. -/
def Unnested (rows : List Row) (q r : Row) : Prop := ¬AtOrBelow rows q r ∧ ¬AtOrBelow rows r q

section

variable {rows : List Row}

theorem Apart.symm {e f : Edit} (h : Apart rows e f) : Apart rows f e := ⟨h.2, h.1⟩

theorem apart_insert_right {e : Edit} {parent : Option Nat} {d : Draft} :
    Apart rows e (.insert parent d) :=
  ⟨not_false, Edit.not_spoils_insert⟩

theorem apart_insert_left {f : Edit} {parent : Option Nat} {d : Draft} :
    Apart rows (.insert parent d) f :=
  apart_insert_right.symm

/-- An edit spoils one about the same row, or about a row below. -/
theorem Edit.Spoils.exists_atOrBelow {e f : Edit} (h : e.Spoils rows f) (ho : Ordered rows)
    {q r : Row} (he : e.Inside rows q) (hf : f.Inside rows r) :
    ∃ x, AtOrBelow rows q x ∧ AtOrBelow rows r x := by
  obtain ⟨a, ha, haPlace⟩ := he
  obtain ⟨b, hb, hbPlace⟩ := hf
  have hremoved : ∀ {x : Row}, x ∈ rows → f.place? = some x.id → e.Removes rows x →
      ∃ x, AtOrBelow rows q x ∧ AtOrBelow rows r x := by
    rintro x hx hplace ⟨y, hy, path, rfl⟩
    have hya : a = y := ho.eq_of_id ha.mem hy.mem_top (Option.some.inj haPlace).symm
    have hxb : b = x := ho.eq_of_id hb.mem hx (Option.some.inj (hbPlace.symm.trans hplace))
    subst hya
    subst hxb
    exact ⟨b, ha.trans hy, hb⟩
  cases f with
  | remove id path =>
      obtain ⟨x, hx, rfl, hremoves⟩ := h
      exact hremoved hx rfl hremoves
  | update id path expected attributes =>
      rcases h with ⟨x, hx, rfl, hremoves⟩ | ⟨attributes', -, path', expected', rfl⟩
      · exact hremoved hx rfl hremoves
      · have hab : a = b := ho.eq_of_id ha.mem hb.mem
          (Option.some.inj (haPlace.symm.trans hbPlace))
        subst hab
        exact ⟨a, ha, hb⟩
  | insert parent d => exact h.elim

/-- Edits in subtrees that share no row keep apart. -/
theorem apart_of_inside (ho : Ordered rows) {e f : Edit} {q r : Row} (he : e.Inside rows q)
    (hf : f.Inside rows r) (hdisjoint : ∀ x, AtOrBelow rows q x → ¬AtOrBelow rows r x) :
    Apart rows e f := by
  constructor
  · intro hspoils
    obtain ⟨x, hqx, hrx⟩ := hspoils.exists_atOrBelow ho he hf
    exact hdisjoint x hqx hrx
  · intro hspoils
    obtain ⟨x, hrx, hqx⟩ := hspoils.exists_atOrBelow ho hf he
    exact hdisjoint x hqx hrx

/-- An update of a row keeps apart from the edits below the row. -/
theorem apart_update_of_below (ho : Ordered rows) {r q : Row} {f : Edit}
    (hq : q.parent = some r.id) (hf : f.Inside rows q) (attributes : String) :
    Apart rows (.update r.id r.path r.attributes attributes) f := by
  have habove : ∀ x, AtOrBelow rows q x → r.id < x.id := by
    intro x hx
    have hlt := ho.parents q hx.mem_top r.id hq
    have hle := hx.le ho
    omega
  obtain ⟨b, hb, hplace⟩ := hf
  have hlt := habove b hb
  constructor
  · intro hspoils
    cases f with
    | remove id path =>
        obtain ⟨x, -, -, hremoves⟩ := hspoils
        exact Edit.not_removes_update hremoves
    | update id path expected attributes' =>
        rcases hspoils with ⟨x, -, -, hremoves⟩ | ⟨a, -, hupdates⟩
        · exact Edit.not_removes_update hremoves
        · have hid : id = b.id := Option.some.inj hplace
          rw [Edit.updates_update_iff] at hupdates
          omega
    | insert parent d => exact hspoils
  · rintro (⟨x, hx, hid, y, hy, path, rfl⟩ | ⟨a, -, path, expected, rfl⟩)
    · have hyb : y.id = b.id := Option.some.inj hplace
      have hle := hy.le ho
      omega
    · have hid : r.id = b.id := Option.some.inj hplace
      omega

theorem Unnested.disjoint (ho : Ordered rows) {q r : Row} (h : Unnested rows q r) :
    ∀ x, AtOrBelow rows q x → ¬AtOrBelow rows r x := by
  intro x hq hr
  rcases hq.linear hr ho with hqr | hrq
  · exact h.1 hqr
  · exact h.2 hrq

end

/-! ## One reconciliation -/

section

variable {owner : Nat} {s : Store}

theorem removeEdits_apart (hs : s.Sound) {stored : List Row} {parent : Option Nat}
    (hstored : ∀ q ∈ stored, q ∈ s.rows ∧ q.owner = owner) (hparent : ∀ q ∈ stored,
      q.parent = parent) : (removeEdits stored).Pairwise (Apart s.rows) := by
  refine List.pairwise_map.mpr ((Keyed.sorted_ofList _).imp_of_mem ?_)
  intro a b ha hb hlt
  obtain ⟨q, hq, heq⟩ := eq_remove_of_mem_removeEdits (List.mem_map_of_mem ha)
  obtain ⟨r, hr, heq'⟩ := eq_remove_of_mem_removeEdits (List.mem_map_of_mem hb)
  rw [heq, heq']
  have hpath : q.path = a.1 := (Edit.remove.inj heq).2.symm
  have hpath' : r.path = b.1 := (Edit.remove.inj heq').2.symm
  refine apart_of_inside hs.ordered ⟨q, .self (hstored q hq).1, rfl⟩
    ⟨r, .self (hstored r hr).1, rfl⟩ fun x hqx hrx => ?_
  have hsame : q = r := hqx.eq_of_siblings hrx hs.ordered
    ((hparent q hq).trans (hparent r hr).symm)
  rw [← hpath, ← hpath', hsame] at hlt
  exact lt_irrefl _ hlt

mutual
/-- The edits of one reconciliation keep apart. -/
theorem reconcile_apart (hs : s.Sound) : (d : Draft) → {r : Row} → {es : List Edit} →
    r ∈ s.rows → r.owner = owner → r.path = d.path → d.Sound →
    reconcile s.rows r d = .ok es → es.Pairwise (Apart s.rows)
  | .mk path attributes children, r, es => by
    intro hr howner hpath hd h
    obtain ⟨own, below, hown, hbelow, rfl⟩ := reconcile_eq_ok_iff.mp h
    have hstored : ∀ q ∈ childrenIn s.rows r, q ∈ s.rows ∧ q.owner = owner :=
      fun q hq => ⟨(mem_childrenIn.mp hq).1, (owner_of_child hs hr hq).trans howner⟩
    have hdrafts : ∀ c ∈ children, c.Sound ∧ s.Carries owner (some r.id) c.path :=
      fun c hc => ⟨hd.child hc, carries_child hr howner hpath hd hc⟩
    refine List.pairwise_append.mpr ⟨?_, ?_, ?_⟩
    · obtain ⟨old, new, -, -, rfl⟩ := leafEdits_eq_ok_iff.mp hown
      split
      · exact .nil
      · exact List.pairwise_singleton _ _
    · exact reconcileChildren_apart hs children hstored
        (fun q hq => (mem_childrenIn.mp hq).2) hdrafts hbelow
    · intro e he f hf
      rw [eq_update_of_mem_leafEdits hown he]
      rcases (reconcileChildren_planned hs children hstored hdrafts hbelow f hf).2 with
        ⟨q, hq, hinside⟩ | ⟨c, -, rfl⟩
      · exact apart_update_of_below hs.ordered (mem_childrenIn.mp hq).2 hinside attributes
      · exact apart_insert_right

theorem reconcileChildren_apart (hs : s.Sound) : (ds : List Draft) → {parent : Option Nat} →
    {stored : List Row} → {es : List Edit} → (∀ q ∈ stored, q ∈ s.rows ∧ q.owner = owner) →
    (∀ q ∈ stored, q.parent = parent) →
    (∀ d ∈ ds, d.Sound ∧ s.Carries owner parent d.path) →
    reconcileChildren s.rows parent stored ds = .ok es → es.Pairwise (Apart s.rows)
  | [], parent, stored, es => by
    intro hstored hparent _ h
    cases h
    exact removeEdits_apart hs hstored hparent
  | d :: rest, parent, stored, es => by
    intro hstored hparent hds h
    have hstored' : ∀ q ∈ rowsBut stored d.path, q ∈ s.rows ∧ q.owner = owner :=
      fun q hq => hstored q (mem_rowsBut.mp hq).1
    have hds' : ∀ c ∈ rest, c.Sound ∧ s.Carries owner parent c.path :=
      fun c hc => hds c (List.mem_cons_of_mem _ hc)
    have hrest : ∀ {more : List Edit},
        reconcileChildren s.rows parent (rowsBut stored d.path) rest = .ok more →
        more.Pairwise (Apart s.rows) :=
      reconcileChildren_apart hs rest hstored'
        (fun q hq => hparent q (mem_rowsBut.mp hq).1) hds'
    cases hfind : rowWith? stored d.path with
    | some q =>
        obtain ⟨own, more, hown, hmore, rfl⟩ := (reconcileChildren_cons_of_stored hfind).mp h
        obtain ⟨hq, hpath⟩ := rowWith?_eq_some hfind
        have hd := (hds d List.mem_cons_self).1
        refine List.pairwise_append.mpr ⟨?_, hrest hmore, fun e he f hf => ?_⟩
        · exact reconcile_apart hs d (hstored q hq).1 (hstored q hq).2 hpath hd hown
        · have hinside := (reconcile_planned hs d (hstored q hq).1 (hstored q hq).2 hpath hd
            hown e he).2
          rcases (reconcileChildren_planned hs rest hstored' hds' hmore f hf).2 with
            ⟨x, hx, hinside'⟩ | ⟨c, -, rfl⟩
          · obtain ⟨hx, hother⟩ := mem_rowsBut.mp hx
            refine apart_of_inside hs.ordered hinside hinside' fun y hqy hxy => ?_
            have hsame : q = x := hqy.eq_of_siblings hxy hs.ordered
              ((hparent q hq).trans (hparent x hx).symm)
            exact hother (hsame ▸ hpath)
          · exact apart_insert_right
    | none =>
        obtain ⟨more, hmore, rfl⟩ := (reconcileChildren_cons_of_new hfind).mp h
        exact List.pairwise_cons.mpr ⟨fun f _ => apart_insert_left, hrest hmore⟩
end

/-! ## Several reconciliations -/

/-- The rows that drafts stand for. -/
def treeRows (s : Store) (owner : Nat) (ds : List Draft) : List Row :=
  ds.filterMap fun d => s.rowAt? owner d.path

theorem treeRows_cons_of_new {d : Draft} {rest : List Draft} (h : s.rowAt? owner d.path = none) :
    treeRows s owner (d :: rest) = treeRows s owner rest := by
  rw [treeRows, List.filterMap_cons]
  simp only [h]
  rfl

theorem treeRows_cons_of_stored {d : Draft} {rest : List Draft} {r : Row}
    (h : s.rowAt? owner d.path = some r) :
    treeRows s owner (d :: rest) = r :: treeRows s owner rest := by
  rw [treeRows, List.filterMap_cons]
  simp only [h]
  rfl

/-- The edits of rows of which none is at or below another keep apart. -/
theorem updateEdits_apart (hs : s.Sound) {ds : List Draft} {es : List Edit}
    (hds : ∀ d ∈ ds, d.Sound) (hrows : (treeRows s owner ds).Pairwise (Unnested s.rows))
    (h : updateEdits s owner ds = .ok es) : es.Pairwise (Apart s.rows) := by
  induction ds generalizing es with
  | nil =>
      cases h
      exact .nil
  | cons d rest ih =>
      have hrest : ∀ c ∈ rest, c.Sound := fun c hc => hds c (List.mem_cons_of_mem _ hc)
      cases hr : s.rowAt? owner d.path with
      | none =>
          rw [treeRows_cons_of_new hr] at hrows
          rw [updateEdits_cons_of_new hr] at h
          exact ih hrest hrows h
      | some r =>
          rw [treeRows_cons_of_stored hr, List.pairwise_cons] at hrows
          obtain ⟨own, more, hown, hmore, rfl⟩ := (updateEdits_cons_of_stored hr).mp h
          obtain ⟨hmem, howner, hpath⟩ := rowAt?_eq_some hr
          have hd := hds d List.mem_cons_self
          refine List.pairwise_append.mpr ⟨reconcile_apart hs d hmem howner hpath hd hown,
            ih hrest hrows.2 hmore, fun e he f hf => ?_⟩
          obtain ⟨c, hc, q, hq, own', hown', hf⟩ := mem_updateEdits hmore hf
          obtain ⟨hmem', howner', hpath'⟩ := rowAt?_eq_some hq
          have hunnested := hrows.1 q (List.mem_filterMap.mpr ⟨c, hc, hq⟩)
          exact apart_of_inside hs.ordered
            (reconcile_planned hs d hmem howner hpath hd hown e he).2
            (reconcile_planned hs c hmem' howner' hpath' (hrest c hc) hown' f hf).2
            (hunnested.disjoint hs.ordered)

/-! ## Batches -/

/-- The rows that a batch of updates names. -/
def batchRows (s : Store) (owner : Nat) (updates : List (String × Leaves)) : List Row :=
  updates.filterMap fun u => (Path.normalize u.1).toOption.bind (s.rowAt? owner)

theorem batchRows_cons_of_stored {u : String × Leaves} {rest : List (String × Leaves)} {r : Row}
    (h : (Path.normalize u.1).toOption.bind (s.rowAt? owner) = some r) :
    batchRows s owner (u :: rest) = r :: batchRows s owner rest := by
  rw [batchRows, List.filterMap_cons]
  simp only [h]
  rfl

theorem apart_updates {q r : Row} (h : q.id ≠ r.id) (a b : String) :
    Apart s.rows (.update q.id q.path q.attributes a) (.update r.id r.path r.attributes b) := by
  constructor
  · rintro (⟨x, -, -, hremoves⟩ | ⟨c, -, hupdates⟩)
    · exact Edit.not_removes_update hremoves
    · exact h (Edit.updates_update_iff.mp hupdates).1.symm
  · rintro (⟨x, -, -, hremoves⟩ | ⟨c, -, hupdates⟩)
    · exact Edit.not_removes_update hremoves
    · exact h (Edit.updates_update_iff.mp hupdates).1

theorem mergeEdits_eq_ok {path : String} {leaves : Leaves} {es : List Edit}
    (h : mergeEdits s owner path leaves = .ok es) :
    es = [] ∨ ∃ r, (Path.normalize path).toOption.bind (s.rowAt? owner) = some r
      ∧ ∃ attributes, es = [.update r.id r.path r.attributes attributes] := by
  rw [mergeEdits] at h
  split at h
  · cases h
    exact .inl rfl
  · rename_i r hr
    split at h
    · cases h
    · cases h
      split
      · exact .inl rfl
      · exact .inr ⟨r, hr, _, rfl⟩

/-- The edits of updates that name different rows keep apart. -/
theorem batchEdits_apart (hs : s.Sound) {updates : List (String × Leaves)} {es : List Edit}
    (hrows : (batchRows s owner updates).Nodup) (h : batchEdits s owner updates = .ok es) :
    es.Pairwise (Apart s.rows) := by
  induction updates generalizing es with
  | nil =>
      cases h
      exact .nil
  | cons u rest ih =>
      obtain ⟨own, more, hown, hmore, rfl⟩ := batchEdits_cons_eq_ok_iff.mp h
      have hrest : (batchRows s owner rest).Nodup :=
        hrows.sublist ((List.sublist_cons_self u rest).filterMap _)
      rcases mergeEdits_eq_ok hown with rfl | ⟨r, hr, attributes, rfl⟩
      · exact ih hrest hmore
      · rw [batchRows_cons_of_stored hr, List.nodup_cons] at hrows
        refine List.pairwise_cons.mpr ⟨fun f hf => ?_, ih hrest hmore⟩
        obtain ⟨v, hv, own', hown', hf⟩ := mem_batchEdits hmore hf
        rcases mergeEdits_eq_ok hown' with rfl | ⟨q, hq, attributes', rfl⟩
        · cases hf
        · rw [List.mem_singleton.mp hf]
          have hmem : q ∈ batchRows s owner rest := List.mem_filterMap.mpr ⟨v, hv, hq⟩
          refine apart_updates (fun hid => hrows.1 ?_) _ _
          obtain ⟨target, -, hrow⟩ := Option.bind_eq_some_iff.mp hr
          obtain ⟨target', -, hrow'⟩ := Option.bind_eq_some_iff.mp hq
          rw [hs.eq_of_id (rowAt?_eq_some hrow).1 (rowAt?_eq_some hrow').1 hid]
          exact hmem

end

/-! ## Order -/

/-- Of edits that keep apart none spoils one after it, in whatever order. -/
theorem not_spoils_inOrder {rows : List Row} {edits : List Edit}
    (h : edits.Pairwise (Apart rows)) :
    (inOrder edits).Pairwise fun e f => ¬e.Spoils rows f :=
  ((inOrder_perm edits).pairwise_iff Apart.symm).mpr h |>.imp And.left

end DataTree
