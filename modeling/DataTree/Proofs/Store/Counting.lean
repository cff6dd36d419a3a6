import DataTree.Proofs.Store.Enacted
import DataTree.Proofs.Store.Rewrites
import DataTree.Proofs.Store.Rooted

/-!
# What is counted

A write counts its edits, and each edit as it is done.  The counts say how the
rows differ afterwards because the edits of one plan do not get in each
other's way: where none of them has met a stale row, no row is updated twice,
none is updated and removed, and what is inserted is still there at the end.
A removal counts the rows that it was asked to remove and not those that hang
under them, so only whether it counts any tells something about the rows.

## Main definitions

* `Summary.Tells` — a summary and the rows before and after a write.
* `Performed` — a store after all edits of a plan.

## Main results

* `tells_survivors` — removals are counted as they change the rows.
* `Performed.updated_eq`, `Performed.deleted_eq_zero_iff`, `inserted_eq` — what
  the counts of edits say.
* `tells_of_applyAll` — edits are counted as they change the rows.
-/

namespace DataTree

/-! ## Rows before and after -/

/-- Whether a row is under an id that no other row had. -/
def Row.isNewTo (rows : List Row) (r' : Row) : Bool := rows.all fun r => r.id ≠ r'.id

/-- Whether a row is still there with other leaves. -/
def Row.isRewrittenIn (rows' : List Row) (r : Row) : Bool :=
  rows'.any fun r' => r'.id = r.id && r'.attributes ≠ r.attributes

/-- Whether a summary tells the rows `rows'` after a write from those before:
how many ids are new, how many rows have other leaves, whether any row is
gone, and whether anything changed at all. -/
structure Summary.Tells (c : Summary) (rows rows' : List Row) : Prop where
  inserted : c.inserted = rows'.countP (Row.isNewTo rows)
  updated : c.updated = rows.countP (Row.isRewrittenIn rows')
  deleted : c.deleted = 0 ↔ ∀ r ∈ rows, ∃ r' ∈ rows', r'.id = r.id
  empty : c.isEmpty = true ↔ rows' = rows

theorem Row.isNewTo_iff {rows : List Row} {r' : Row} :
    r'.isNewTo rows = true ↔ ∀ r ∈ rows, r.id ≠ r'.id := by
  simp [isNewTo]

theorem Row.isRewrittenIn_iff {rows' : List Row} {r : Row} :
    r.isRewrittenIn rows' = true ↔ ∃ r' ∈ rows', r'.id = r.id ∧ r'.attributes ≠ r.attributes := by
  simp [isRewrittenIn]

/-- Rows under increasing ids are told apart by them. -/
theorem Row.eq_of_increasing {rows : List Row} (hids : rows.Pairwise fun q r => q.id < r.id)
    {q r : Row} (hq : q ∈ rows) (hr : r ∈ rows) (hid : q.id = r.id) : q = r := by
  have hnodup : (rows.map Row.id).Nodup :=
    List.pairwise_map.mpr (hids.imp fun hlt => Nat.ne_of_lt hlt)
  exact List.inj_on_of_nodup_map hnodup hq hr hid

/-- Rows that were there before are not new. -/
theorem countP_isNewTo_of_subset {rows rows' : List Row} (hsub : rows' ⊆ rows) :
    rows'.countP (Row.isNewTo rows) = 0 := by
  rw [List.countP_eq_zero]
  intro r hr hnew
  exact Row.isNewTo_iff.mp hnew r (hsub hr) rfl

/-- Neither have they other leaves. -/
theorem countP_isRewrittenIn_of_subset {rows rows' : List Row}
    (hids : rows.Pairwise fun q r => q.id < r.id) (hsub : rows' ⊆ rows) :
    rows.countP (Row.isRewrittenIn rows') = 0 := by
  rw [List.countP_eq_zero]
  intro r hr hrewritten
  obtain ⟨q, hq, hid, hleaves⟩ := Row.isRewrittenIn_iff.mp hrewritten
  rw [Row.eq_of_increasing hids (hsub hq) hr hid] at hleaves
  exact hleaves rfl

namespace Summary

theorem isEmpty_iff {c : Summary} :
    c.isEmpty = true ↔ c.updated = 0 ∧ c.inserted = 0 ∧ c.deleted = 0 := by
  obtain ⟨updated, inserted, deleted⟩ := c
  simp [isEmpty]

/-- Counts that are right are all zero where nothing changed. -/
theorem Tells.of_counts {c : Summary} {rows rows' : List Row}
    (hids : rows.Pairwise fun q r => q.id < r.id)
    (hinserted : c.inserted = rows'.countP (Row.isNewTo rows))
    (hupdated : c.updated = rows.countP (Row.isRewrittenIn rows'))
    (hdeleted : c.deleted = 0 ↔ ∀ r ∈ rows, ∃ r' ∈ rows', r'.id = r.id)
    (hempty : c.isEmpty = true → rows' = rows) : c.Tells rows rows' := by
  refine ⟨hinserted, hupdated, hdeleted, hempty, ?_⟩
  rintro rfl
  apply isEmpty_iff.mpr
  refine ⟨?_, ?_, hdeleted.mpr fun r hr => ⟨r, hr, rfl⟩⟩
  · rw [hupdated, countP_isRewrittenIn_of_subset hids (List.Subset.refl _)]
  · rw [hinserted, countP_isNewTo_of_subset (List.Subset.refl _)]

/-- Where rows have only gone, it is enough to tell whether any has. -/
theorem Tells.of_subset {deleted : Nat} {rows rows' : List Row}
    (hids : rows.Pairwise fun q r => q.id < r.id) (hsub : rows' ⊆ rows)
    (hdeleted : deleted = 0 ↔ ∀ r ∈ rows, ∃ r' ∈ rows', r'.id = r.id)
    (hempty : deleted = 0 → rows' = rows) : Tells { deleted := deleted } rows rows' := by
  apply Tells.of_counts hids _ _ hdeleted
  · intro h
    exact hempty (isEmpty_iff.mp h).2.2
  · exact (countP_isNewTo_of_subset hsub).symm
  · exact (countP_isRewrittenIn_of_subset hids hsub).symm

end Summary

/-! ## Removals -/

theorem hangsUnder_nil (r : Row) : Store.hangsUnder [] r = false := by
  cases h : r.parent <;> simp [Store.hangsUnder, h]

theorem directRemovals_eq_zero_iff {p : Row → Bool} {rows : List Row} :
    Store.directRemovals p [] rows = 0 ↔ ∀ r ∈ rows, p r = false := by
  induction rows with
  | nil => simp [Store.directRemovals]
  | cons r rest ih =>
      rw [Store.directRemovals, hangsUnder_nil, List.forall_mem_cons, ← ih]
      cases hp : p r <;> simp

theorem survivors_eq_self {p : Row → Bool} {rows : List Row} (h : ∀ r ∈ rows, p r = false) :
    Store.survivors p [] rows = rows := by
  induction rows with
  | nil => rfl
  | cons r rest ih =>
      obtain ⟨hr, hrest⟩ := List.forall_mem_cons.mp h
      rw [Store.survivors, hr, hangsUnder_nil, ih hrest]
      rfl

/-- A removal changes no leaves, and it is counted unless it takes nothing. -/
theorem tells_survivors {rows : List Row} (hids : rows.Pairwise fun q r => q.id < r.id)
    (p : Row → Bool) :
    Summary.Tells { deleted := Store.directRemovals p [] rows } rows
      (Store.survivors p [] rows) := by
  have hsub : Store.survivors p [] rows ⊆ rows := (Store.survivors_sublist p [] rows).subset
  apply Summary.Tells.of_subset hids hsub
  · rw [directRemovals_eq_zero_iff]
    constructor
    · intro hnone r hr
      rw [survivors_eq_self hnone]
      exact ⟨r, hr, rfl⟩
    · intro hall r hr
      obtain ⟨q, hq, hid⟩ := hall r hr
      rw [← Row.eq_of_increasing hids (hsub hq) hr hid]
      exact Store.not_of_mem_survivors hq
  · intro hnone
    exact survivors_eq_self (directRemovals_eq_zero_iff.mp hnone)

/-! ## Edits that were all done -/

section

variable {owner : Nat} {edits : List Edit} {s s' : Store} {summary : Summary}

/-- Edits that were applied all together are done and counted. -/
theorem inTurn_of_applyAll (h : applyAll owner edits s = .ok (s', summary)) :
    Unfaulted owner edits s ∧ (inTurn owner edits s).skipped = []
      ∧ s' = (inTurn owner edits s).store ∧ summary = counts edits := by
  by_cases hunfaulted : Unfaulted owner edits s
  · rw [applyAll_eq hunfaulted] at h
    split at h
    · rename_i hnone
      rw [done_of_unskipped hnone] at h
      cases h
      exact ⟨hunfaulted, hnone, rfl, rfl⟩
    · cases h
  · obtain ⟨fault, hfault⟩ := exists_firstFault hunfaulted
    rw [applyAll_of_faulted hfault] at h
    split at h <;> cases h

/-- Each way to carry out edits applies them all together, if it succeeds. -/
theorem applyAll_of_edits {owner : Owner}
    (h : Change.commit s owner (.edits edits) = (s', .ok summary)) :
    applyAll owner.id (inOrder edits) s = .ok (s', summary) := by
  obtain ⟨hunfaulted, hnone, rfl⟩ := inTurn_of_commit h
  rw [applyAll_eq hunfaulted, hnone, summary_of_commit h]

theorem applyAll_of_unit {owner : Owner}
    (h : Change.commit s owner (.unit edits) = (s', .ok summary)) :
    applyAll owner.id (inOrder edits) s = .ok (s', summary) := by
  have hstore : (applyAsUnit owner.id edits s).1 = s' := congrArg Prod.fst h
  have hanswer : Change.answer owner (applyAsUnit owner.id edits s).2 = .ok summary :=
    congrArg Prod.snd h
  rw [applyAsUnit] at hstore hanswer
  split at hanswer
  · cases hanswer
  · rename_i s₁ total skipped hthrough
    rw [hthrough] at hstore
    simp only at hstore
    split at hanswer
    · rename_i hnone
      rw [if_pos hnone] at hstore
      rw [List.isEmpty_iff.mp hnone] at hthrough
      obtain ⟨own, hall, htotal⟩ := applyAll_of_applyThrough hthrough
      rw [Summary.empty_add] at htotal
      cases hanswer
      rw [hall, ← htotal, ← hstore]
    · rw [Change.answer, Applied.answer] at hanswer
      split at hanswer <;> cases hanswer

/-- A store `s'` after all edits of a plan for `s`, none of which has met a row
that an earlier one has spoiled. -/
structure Performed (owner : Nat) (s : Store) (edits : List Edit) (s' : Store) : Prop where
  before : s.Sound
  planned : ∀ e ∈ edits, e.Planned owner s
  changes : ∀ e ∈ edits, e.Changes
  traces : Traces s edits s'
  unspoiled : (inOrder edits).Pairwise fun e f => ¬e.Spoils s.rows f

theorem performed_of_applyAll (hs : s.Sound) (hplanned : ∀ e ∈ edits, e.Planned owner s)
    (hchanges : ∀ e ∈ edits, e.Changes)
    (h : applyAll owner (inOrder edits) s = .ok (s', summary)) : Performed owner s edits s' := by
  obtain ⟨hunfaulted, hnone, rfl, -⟩ := inTurn_of_applyAll h
  have hordered : ∀ e ∈ inOrder edits, e.Planned owner s :=
    fun e he => hplanned e (mem_inOrder.mp he)
  have htraces := traces_inTurn hs (.start hs) hordered hunfaulted hnone
  rw [List.append_nil] at htraces
  -- an edit that meets a row spoiled by an earlier one would have been skipped
  have hstale := stale_not_mem_skipped_iff hs (.start hs) hordered hunfaulted
  exact {
    before := hs
    planned := hplanned
    changes := hchanges
    traces := htraces.perm ((List.reverse_perm _).trans (inOrder_perm edits))
    unspoiled := (hstale.mp (by simp [hnone])).2 }

end

/-- The id of the row that an edit updates. -/
def Edit.updated? : Edit → Option Nat
  | .update id _ _ _ => some id
  | .remove .. | .insert .. => none

theorem Edit.isSome_updated? (e : Edit) : e.updated?.isSome = e.isUpdate := by
  cases e <;> rfl

namespace Performed

variable {owner : Nat} {s s' : Store} {edits : List Edit}

/-- An update is for a row that was there and gives it other leaves. -/
theorem exists_row (h : Performed owner s edits s') {e : Edit} (he : e ∈ edits) {id : Nat}
    (hid : e.updated? = some id) : ∃ r ∈ s.rows, r.id = id ∧ ∃ path attributes,
      e = .update r.id path r.attributes attributes ∧ attributes ≠ r.attributes := by
  cases e with
  | remove => cases hid
  | insert => cases hid
  | update _ path expected attributes =>
      cases hid
      obtain ⟨r, hr, -, rfl, -, rfl⟩ := h.planned _ he
      exact ⟨r, hr, rfl, path, attributes, rfl, h.changes _ he⟩

/-- Removals come first, so they have spared every row that is updated. -/
theorem not_removes (h : Performed owner s edits s') {id : Nat}
    {path expected attributes : String} (hupdate : .update id path expected attributes ∈ edits)
    {r : Row} (hr : r ∈ s.rows) (hid : r.id = id) : ∀ e ∈ edits, ¬e.Removes s.rows r := by
  intro e he hremoves
  cases e with
  | update => exact Edit.not_removes_update hremoves
  | insert => exact Edit.not_removes_insert hremoves
  | remove gone at' =>
      have hpairs := (List.pairwise_append.mp h.unspoiled).1
      have hbefore := (List.pairwise_append.mp hpairs).2.2
      apply hbefore _ (List.mem_filter.mpr ⟨he, rfl⟩) _ (List.mem_filter.mpr ⟨hupdate, rfl⟩)
      exact .inl ⟨r, hr, hid, hremoves⟩

/-- A row has other leaves exactly if an edit has updated it. -/
theorem isRewritten_iff (h : Performed owner s edits s') {r : Row} (hr : r ∈ s.rows) :
    r.isRewrittenIn s'.rows = true ↔ r.id ∈ edits.filterMap Edit.updated? := by
  rw [Row.isRewrittenIn_iff, List.mem_filterMap]
  constructor
  · rintro ⟨r', hr', hid, hleaves⟩
    rcases h.traces.leaves r hr r' hr' hid with ⟨heq, -⟩ | ⟨e, he, path, expected, rfl⟩
    · exact absurd heq hleaves
    · exact ⟨_, he, rfl⟩
  · rintro ⟨e, he, hid⟩
    obtain ⟨q, hq, hqid, path, attributes, rfl, hchanges⟩ := h.exists_row he hid
    obtain rfl := h.before.eq_of_id hq hr hqid
    have hkept := (h.traces.stays q hq).mpr (h.not_removes he hq rfl)
    obtain ⟨r', hr', hid'⟩ := Store.hasRow_iff.mp hkept
    refine ⟨r', hr', hid', fun hleaves => hchanges ?_⟩
    exact h.traces.unspoiled q hq r' hr' hid' hleaves _ he attributes
      (Edit.updates_update_iff.mpr ⟨rfl, rfl⟩)

/-- No row is updated twice. -/
theorem nodup_updated (h : Performed owner s edits s') :
    ((inOrder edits).filterMap Edit.updated?).Nodup := by
  refine (List.pairwise_filterMap ..).mpr (h.unspoiled.imp_of_mem ?_)
  intro e f he hf hspoils id hid id' hid' heq
  subst heq
  obtain ⟨q, hq, hqid, path, attributes, rfl, hchanges⟩ := h.exists_row (mem_inOrder.mp he) hid
  obtain ⟨r, hr, hrid, path', attributes', rfl, -⟩ := h.exists_row (mem_inOrder.mp hf) hid'
  obtain rfl := h.before.eq_of_id hq hr (hqid.trans hrid.symm)
  apply hspoils
  exact .inr ⟨attributes, hchanges, Edit.updates_update_iff.mpr ⟨rfl, rfl⟩⟩

theorem updated_eq (h : Performed owner s edits s') :
    (counts (inOrder edits)).updated = s.rows.countP (Row.isRewrittenIn s'.rows) := by
  have hnodup : ((s.rows.filter (Row.isRewrittenIn s'.rows)).map Row.id).Nodup :=
    List.pairwise_map.mpr ((h.before.ids.filter _).imp fun hlt => Nat.ne_of_lt hlt)
  -- neither list repeats an id, so it is enough that they have the same ids
  have hperm : ((inOrder edits).filterMap Edit.updated?).Perm
      ((s.rows.filter (Row.isRewrittenIn s'.rows)).map Row.id) := by
    refine (List.perm_ext_iff_of_nodup h.nodup_updated hnodup).mpr fun id => ?_
    rw [((inOrder_perm edits).filterMap Edit.updated?).mem_iff, List.mem_map]
    constructor
    · intro hid
      obtain ⟨e, he, hupdated⟩ := List.mem_filterMap.mp hid
      obtain ⟨r, hr, rfl, -⟩ := h.exists_row he hupdated
      exact ⟨r, List.mem_filter.mpr ⟨hr, (h.isRewritten_iff hr).mpr hid⟩, rfl⟩
    · rintro ⟨r, hr, rfl⟩
      obtain ⟨hr, hrewritten⟩ := List.mem_filter.mp hr
      exact (h.isRewritten_iff hr).mp hrewritten
  calc (inOrder edits).countP Edit.isUpdate
      = ((inOrder edits).filterMap Edit.updated?).length := by
        rw [List.length_filterMap_eq_countP]
        exact List.countP_congr fun e _ => by rw [Edit.isSome_updated?]
    _ = ((s.rows.filter (Row.isRewrittenIn s'.rows)).map Row.id).length := hperm.length_eq
    _ = s.rows.countP (Row.isRewrittenIn s'.rows) := by
        rw [List.length_map, List.countP_eq_length_filter]

theorem deleted_eq_zero_iff (h : Performed owner s edits s') :
    (counts (inOrder edits)).deleted = 0 ↔ ∀ r ∈ s.rows, ∃ r' ∈ s'.rows, r'.id = r.id := by
  show (inOrder edits).countP Edit.isRemove = 0 ↔ _
  rw [List.countP_eq_zero]
  constructor
  · intro hnone r hr
    apply Store.hasRow_iff.mp
    apply (h.traces.stays r hr).mpr
    intro e he hremoves
    exact hnone e (mem_inOrder.mpr he) (Edit.isRemove_of_removes hremoves)
  · intro hall e he hremove
    cases e with
    | update => cases hremove
    | insert => cases hremove
    | remove id path =>
        have he := mem_inOrder.mp he
        obtain ⟨r, hr, -, rfl, -⟩ := h.planned _ he
        have hrow := Store.hasRow_iff.mpr (hall r hr)
        exact (h.traces.stays r hr).mp hrow _ he ⟨r, .self hr, path, rfl⟩

end Performed

/-! ## Rows inserted -/

/-- Insertions put rows behind all others, under ids above all used before. -/
theorem rows_inTurn_of_insert {owner : Nat} {edits : List Edit} {s : Store}
    (hinsert : ∀ e ∈ edits, e.isInsert = true) (hnone : (inTurn owner edits s).skipped = []) :
    ∃ new, (inTurn owner edits s).store.rows = s.rows ++ new
      ∧ new.length = (edits.map Edit.inserted).sum ∧ ∀ r ∈ new, s.lastRow < r.id := by
  induction edits generalizing s with
  | nil => exact ⟨[], by simp [inTurn], rfl, by simp⟩
  | cons e rest ih =>
      have hrest := fun f hf => hinsert f (List.mem_cons_of_mem e hf)
      cases e with
      | remove => cases hinsert _ List.mem_cons_self
      | update => cases hinsert _ List.mem_cons_self
      | insert parent d =>
          cases hconflict : (Edit.insert parent d).conflict? owner s with
          | some conflict =>
              rw [inTurn_cons_of_conflict hconflict] at hnone
              cases hnone
          | none =>
              rw [inTurn_cons_of_free hconflict] at hnone ⊢
              obtain ⟨new, hrows, hlength, hids⟩ := ih hrest hnone
              refine ⟨d.rows owner parent (s.lastRow + 1) ++ new, ?_, ?_, fun r hr => ?_⟩
              · rw [hrows, ← List.append_assoc]
                rfl
              · rw [List.length_append, hlength, d.length_rows, List.map_cons, List.sum_cons,
                  Edit.inserted, d.length_paths]
              · rcases List.mem_append.mp hr with hr | hr
                · exact Nat.lt_of_succ_le (Draft.le_id_of_mem_rows d hr)
                · have hlast : s.lastRow ≤ ((Edit.insert parent d).effect owner s).lastRow :=
                    Nat.le_add_right _ _
                  exact Nat.lt_of_le_of_lt hlast (hids r hr)

theorem inserted_of_not_insert {edits : List Edit} (h : ∀ e ∈ edits, e.isInsert = false) :
    (edits.map Edit.inserted).sum = 0 := by
  rw [List.sum_eq_zero_iff]
  intro n hn
  obtain ⟨e, he, rfl⟩ := List.mem_map.mp hn
  cases e with
  | remove => rfl
  | update => rfl
  | insert => cases h _ he

section

variable {owner : Nat} {edits : List Edit} {s s' : Store} {summary : Summary}

/-- What is inserted comes after all removals and updates, so it is still there
at the end. -/
theorem inserted_eq (hs : s.Sound) (hplanned : ∀ e ∈ edits, e.Planned owner s)
    (h : applyAll owner (inOrder edits) s = .ok (s', summary)) :
    summary.inserted = s'.rows.countP (Row.isNewTo s.rows) := by
  obtain ⟨hunfaulted, hnone, rfl, rfl⟩ := inTurn_of_applyAll h
  obtain ⟨front, hfront, horder⟩ := inOrder_eq edits
  have hfrontPlanned : ∀ e ∈ front, e.Planned owner s := fun e he =>
    hplanned e (mem_inOrder.mp (by rw [horder]; exact List.mem_append_left _ he))
  rw [horder, unfaulted_append] at hunfaulted
  rw [horder, inTurn_append] at hnone
  obtain ⟨hnoneFront, hnoneInserts⟩ := List.append_eq_nil_iff.mp hnone
  have hmid := traces_inTurn hs (.start hs) hfrontPlanned hunfaulted.1 hnoneFront
  obtain ⟨new, hrows, hlength, hids⟩ :=
    rows_inTurn_of_insert (fun e he => (List.mem_filter.mp he).2) hnoneInserts
  rw [lastRow_inTurn s hfront] at hids
  have hold : (inTurn owner front s).store.rows.countP (Row.isNewTo s.rows) = 0 := by
    rw [List.countP_eq_zero]
    intro r' hr' hnew
    have hle : r'.id ≤ s.lastRow := lastRow_inTurn s hfront ▸ hmid.sound.fresh r' hr'
    obtain ⟨r, hr, heq⟩ := hmid.rows r' hr' hle
    exact Row.isNewTo_iff.mp hnew r hr (by rw [heq])
  have hnew : new.countP (Row.isNewTo s.rows) = new.length := by
    rw [List.countP_eq_length]
    intro r' hr'
    apply Row.isNewTo_iff.mpr
    intro r hr
    have hle := hs.fresh r hr
    have hlt := hids r' hr'
    omega
  rw [horder, inTurn_append, hrows, List.countP_append, hold, hnew, hlength]
  show ((front ++ edits.filter Edit.isInsert).map Edit.inserted).sum = _
  rw [List.map_append, List.sum_append, inserted_of_not_insert hfront]

/-- Every edit is counted. -/
theorem eq_nil_of_isEmpty (h : (counts edits).isEmpty = true) : edits = [] := by
  obtain ⟨hupdated, hinserted, hdeleted⟩ := Summary.isEmpty_iff.mp h
  apply List.eq_nil_iff_forall_not_mem.mpr
  intro e he
  cases e with
  | remove => exact List.countP_eq_zero.mp hdeleted _ he rfl
  | update => exact List.countP_eq_zero.mp hupdated _ he rfl
  | insert parent d =>
      have hzero := List.sum_eq_zero_iff.mp hinserted _ (List.mem_map_of_mem he)
      obtain ⟨path, attributes, children⟩ := d
      cases hzero

/-- Edits of a plan are counted as they change the rows, if they all were
applied together. -/
theorem tells_of_applyAll (hs : s.Sound) (hplanned : ∀ e ∈ edits, e.Planned owner s)
    (hchanges : ∀ e ∈ edits, e.Changes)
    (h : applyAll owner (inOrder edits) s = .ok (s', summary)) :
    summary.Tells s.rows s'.rows := by
  have hperformed := performed_of_applyAll hs hplanned hchanges h
  have hinserted := inserted_eq hs hplanned h
  obtain ⟨-, -, rfl, rfl⟩ := inTurn_of_applyAll h
  apply Summary.Tells.of_counts hs.ids hinserted hperformed.updated_eq
    hperformed.deleted_eq_zero_iff
  intro hempty
  rw [eq_nil_of_isEmpty hempty]
  rfl

end

end DataTree
