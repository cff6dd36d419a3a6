import DataTree.Proofs.Json.Written
import DataTree.Proofs.Store.Appended
import DataTree.Proofs.Store.Serial
import DataTree.Proofs.Store.Summaries

/-!
# Leaves merged into many nodes

A batch whose updates name different paths is carried out without conflicts: it gives
each row that it names the leaves merged into those the row had, unless they are equal to
them, and touches nothing else.  Leaves that it supplies are then read as supplied.  The
others of a row that is rewritten are written anew, and a double among them is read as
whatever its text denotes.

## Main definitions

* `Batch.supplied` — the leaves that a batch has for a row.
* `Batch.Merges` — the leaves of a row before and after a batch.
* `Store.hasTarget` — whether an update names a row.

## Main results

* `exists_batchEdits` — the edits of a batch.
* `applyAll_edits` — edits that expect the rows as they are succeed.
* `updateBatch_merges` — what a batch does to the rows, and again.
-/

namespace DataTree

namespace Batch

/-- The leaves that a batch has for a row. -/
def supplied (b : Batch) (r : Row) : Leaves := (b.leavesFor? r).getD []

/-- Whether a batch changes the leaves of a row. -/
def rewrites (b : Batch) (r : Row) : Bool :=
  match Leaves.parse r.attributes with
  | none => false
  | some old => !Leaves.same (b.merge r old) old

/-- The text of a row after a batch. -/
def textAfter (b : Batch) (r : Row) : String :=
  if b.rewrites r then Leaves.text (b.merge r ((Leaves.parse r.attributes).getD []))
  else r.attributes

/-- The edit by which a batch rewrites a row. -/
def edit (b : Batch) (r : Row) : Edit := .update r.id r.path r.attributes (b.textAfter r)

/-- The leaves of a row before a batch was merged into it and, under a text, after it. -/
structure Merges (b : Batch) (r : Row) (text : String) (old new : Leaves) : Prop where
  before : Leaves.parse r.attributes = some old
  after : Leaves.parse text = some new
  /-- The row is rewritten exactly if its leaves change, -/
  unchanged : text = r.attributes ↔ new = old
  /-- which is so exactly if the leaves supplied are not there already. -/
  settled : new = old ↔ b.merge r old = old
  unnamed : ¬b.Names r → new = old
  /-- All that is supplied is there afterwards. -/
  supplies : ∀ name v, Keyed.find? name (b.supplied r) = some v → Keyed.find? name new = some v
  /-- All else is as it is read back if the row was rewritten, -/
  keeps : ∀ name, Keyed.find? name (b.supplied r) = none → new ≠ old →
    Keyed.find? name new = (Keyed.find? name old).bind Json.reread
  /-- and in any case the same but for doubles. -/
  alike : ∀ name v, Keyed.find? name (b.supplied r) = none → Keyed.find? name old = some v →
    ∃ w, Keyed.find? name new = some w ∧ v.Alike w
  /-- So the leaves are those supplied in those before exactly if what is written anew
  comes back. -/
  exactly : new = b.merge r old ↔ new = old ∨ ∀ leaf ∈ old,
    Keyed.find? leaf.1 (b.supplied r) = none → leaf.2.reread = some leaf.2
  plain : Node.badLeaf? new = none

end Batch

/-- Whether an update names a row of an owner. -/
def Store.hasTarget (s : Store) (owner : Nat) (update : String × Leaves) : Bool :=
  s.rows.any fun r => r.owner = owner && Batch.target? update = some r.path

section

variable {s : Store} {b : Batch} {r : Row} {old new : Leaves}

/-! ## One row -/

theorem Batch.supplied_of_not_names (h : ¬b.Names r) : b.supplied r = [] := by
  rw [Batch.Names, Bool.not_eq_true, Option.isSome_eq_false_iff, Option.isNone_iff_eq_none] at h
  rw [Batch.supplied, h]
  rfl

theorem Batch.supplied_exact (hexact : ∀ u ∈ b.updates, u.2.Exact) : (b.supplied r).Exact :=
  leavesFor_of_forall r ⟨.nil, trivial⟩ hexact

theorem Batch.supplied_valid (hvalid : ∀ u ∈ b.updates, Node.badLeaf? u.2 = none) :
    Node.badLeaf? (b.supplied r) = none :=
  leavesFor_of_forall (P := fun leaves => Node.badLeaf? leaves = none) r rfl hvalid

theorem Batch.merge_eq : b.merge r old = Keyed.insertAll old (b.supplied r) := rfl

/-- A merge holds what is supplied and, where nothing is, what was there. -/
theorem Batch.find?_merge (h : (b.supplied r).Exact) (name : String) :
    Keyed.find? name (b.merge r old)
      = (Keyed.find? name (b.supplied r)).or (Keyed.find? name old) := by
  rw [Batch.merge_eq, Keyed.find?_insertAll, Keyed.find?_eq_lastAt h.1.nodup_keys]

/-- Leaves that hold all that is supplied stay as they are. -/
theorem Batch.merge_eq_self (h : (b.supplied r).Exact) (hold : old.Held)
    (hall : ∀ name v, Keyed.find? name (b.supplied r) = some v → Keyed.find? name old = some v) :
    b.merge r old = old := by
  refine (hold.insertAll h.held).1.ext hold.1 fun name => ?_
  rw [← Batch.merge_eq, Batch.find?_merge h]
  cases hname : Keyed.find? name (b.supplied r) with
  | none => rw [Option.none_or]
  | some v => rw [Option.some_or, hall name v hname]

/-- A batch rewrites only rows that it names. -/
theorem Batch.names_of_rewrites (h : b.rewrites r = true) : b.Names r := by
  by_contra hnames
  rw [Batch.rewrites] at h
  split at h
  · cases h
  · rename_i old _
    have hmerge : b.merge r old = old := by
      rw [Batch.merge_eq, Batch.supplied_of_not_names hnames]
      rfl
    rw [hmerge, Leaves.same_self] at h
    cases h

theorem Batch.rewrites_eq (hold : Leaves.parse r.attributes = some old) :
    b.rewrites r = !Leaves.same (b.merge r old) old := by
  rw [Batch.rewrites, hold]

theorem Batch.textAfter_eq (hold : Leaves.parse r.attributes = some old) :
    b.textAfter r = if b.rewrites r then Leaves.text (b.merge r old) else r.attributes := by
  rw [Batch.textAfter, hold, Option.getD_some]

theorem Batch.merges_of_merge_eq (hold : Leaves.parse r.attributes = some old)
    (hplain : Node.badLeaf? old = none) (h : (b.supplied r).Exact) (hmerge : b.merge r old = old) :
    b.Merges r r.attributes old old where
  before := hold
  after := hold
  unchanged := iff_of_true rfl rfl
  settled := iff_of_true rfl hmerge
  unnamed _ := rfl
  supplies name v hv := by rw [← hmerge, Batch.find?_merge h, hv, Option.some_or]
  keeps _ _ hne := absurd rfl hne
  alike _ v _ hv := ⟨v, hv, Json.alike_of_same v v (Json.same_self v)⟩
  exactly := iff_of_true hmerge.symm (.inl rfl)
  plain := hplain

/-- A row that is rewritten reads back with all that is supplied, and with what is
written anew of the rest. -/
theorem Batch.exists_merges_of_merge_ne (hold : Leaves.parse r.attributes = some old)
    (hplain : Node.badLeaf? old = none) (h : (b.supplied r).Exact)
    (hvalid : Node.badLeaf? (b.supplied r) = none) (hmerge : b.merge r old ≠ old) :
    ∃ new, b.Merges r (Leaves.text (b.merge r old)) old new := by
  have hheld := Leaves.held_of_parse hold
  have hmerged : Leaves.Held (b.merge r old) := hheld.insertAll h.held
  obtain ⟨new, hnew, hnewheld, hnewplain⟩ :=
    Leaves.exists_parse_text hmerged (Leaves.badLeaf?_insertAll hplain hvalid)
  have hne : new ≠ old := by
    rintro rfl
    exact hmerge (Leaves.insertAll_eq_of_parse_text hheld h hnew)
  have hfind := Leaves.find?_of_parse_text hmerged hnew
  have hsupplies : ∀ name v, Keyed.find? name (b.supplied r) = some v →
      Keyed.find? name new = some v := by
    intro name v hv
    have hmem := Keyed.mem_of_find? hv
    rw [hfind, Batch.find?_merge h, hv, Option.some_or, Option.bind_some]
    exact Json.reread_of_exact (Leaves.membersExact_iff.mp h.2 _ hmem)
      (Leaves.badLeaf?_eq_none_iff.mp hvalid _ hmem)
  have hkeeps : ∀ name, Keyed.find? name (b.supplied r) = none →
      Keyed.find? name new = (Keyed.find? name old).bind Json.reread := by
    intro name hname
    rw [hfind, Batch.find?_merge h, hname, Option.none_or]
  have halike : ∀ name v, Keyed.find? name (b.supplied r) = none → Keyed.find? name old = some v →
      ∃ w, Keyed.find? name new = some w ∧ v.Alike w := by
    intro name v hname hv
    have hmem := Keyed.mem_of_find? hv
    have hvheld := Leaves.membersHeld_iff.mp hheld.2 _ hmem
    have hdepth := Leaves.depth_of_isLeafValue (Leaves.badLeaf?_eq_none_iff.mp hplain _ hmem)
    obtain ⟨w, hw, -, halike⟩ := Json.exists_parse_text hvheld (hdepth.trans (by decide))
    refine ⟨w, ?_, halike⟩
    rw [hkeeps name hname, hv, Option.bind_some]
    exact hw
  refine ⟨new, ⟨hold, hnew, iff_of_false (fun htext => ?_) hne, iff_of_false hne hmerge,
    fun hnames => ?_, hsupplies, fun name hname _ => hkeeps name hname, halike, ?_, hnewplain⟩⟩
  · rw [htext, hold] at hnew
    exact hne (Option.some.inj hnew).symm
  · rw [Batch.merge_eq, Batch.supplied_of_not_names hnames] at hmerge
    exact absurd rfl hmerge
  · rw [or_iff_right hne]
    constructor
    · rintro rfl leaf hleaf hname
      have hkept := hkeeps leaf.1 hname
      rw [Batch.find?_merge h, hname, Option.none_or, hheld.1.find?_eq_some_iff.mpr hleaf] at hkept
      exact hkept.symm
    · intro hback
      refine hnewheld.1.ext hmerged.1 fun name => ?_
      rw [Batch.find?_merge h]
      cases hname : Keyed.find? name (b.supplied r) with
      | some v => rw [Option.some_or, hsupplies name v hname]
      | none =>
          rw [Option.none_or, hkeeps name hname]
          cases hleaf : Keyed.find? name old with
          | none => rfl
          | some v =>
              rw [Option.bind_some]
              exact hback (name, v) (Keyed.mem_of_find? hleaf) hname

/-- What a batch makes of a row that can be read. -/
theorem Batch.exists_merges (hold : Leaves.parse r.attributes = some old)
    (hplain : Node.badLeaf? old = none) (h : (b.supplied r).Exact)
    (hvalid : Node.badLeaf? (b.supplied r) = none) :
    ∃ new, b.Merges r (b.textAfter r) old new := by
  have hsame : Leaves.same (b.merge r old) old = true ↔ b.merge r old = old :=
    Leaves.same_insertAll_iff (Leaves.held_of_parse hold) h
  rw [Batch.textAfter_eq hold, Batch.rewrites_eq hold]
  by_cases hmerge : b.merge r old = old
  · rw [hsame.mpr hmerge]
    exact ⟨old, Batch.merges_of_merge_eq hold hplain h hmerge⟩
  · rw [Bool.eq_false_iff.mpr (mt hsame.mp hmerge)]
    exact Batch.exists_merges_of_merge_ne hold hplain h hvalid hmerge

/-- Where the leaves that a batch supplies are there already, it rewrites nothing. -/
theorem Batch.Merges.rewrites_after {text : String} (hm : b.Merges r text old new)
    (h : (b.supplied r).Exact) : b.rewrites { r with attributes := text } = false := by
  have hmerge : b.merge { r with attributes := text } new = new :=
    Batch.merge_eq_self h (Leaves.held_of_parse hm.after) hm.supplies
  rw [Batch.rewrites_eq hm.after, hmerge, Leaves.same_self]
  rfl

/-! ## The edits -/

/-- The edit of an update, if it names a row whose leaves change. -/
theorem exists_mergeEdits (hs : s.Sound) (hdistinct : b.Distinct)
    (hread : ∀ r ∈ s.rows, ∃ old, Leaves.parse r.attributes = some old)
    {u : String × Leaves} (hu : u ∈ b.updates) :
    ∃ own, mergeEdits s b.owner.id u.1 u.2 = .ok own
      ∧ (own.Pairwise fun e f => e.place? ≠ f.place?)
      ∧ ∀ e, e ∈ own ↔ ∃ r ∈ s.rows, r.owner = b.owner.id ∧ Batch.target? u = some r.path
        ∧ b.rewrites r = true ∧ e = b.edit r := by
  obtain ⟨path, leaves⟩ := u
  rw [mergeEdits]
  cases hrow : (Path.normalize path).toOption.bind (s.rowAt? b.owner.id) with
  | none =>
      refine ⟨[], rfl, .nil, fun e => iff_of_false List.not_mem_nil ?_⟩
      rintro ⟨r, hr, howner, htarget, -⟩
      have hfound : (Path.normalize path).toOption.bind (s.rowAt? b.owner.id) = some r :=
        Option.bind_eq_some_iff.mpr ⟨r.path, htarget,
          (rowAt?_eq_some_iff hs).mpr ⟨hr, howner, rfl⟩⟩
      cases hrow.symm.trans hfound
  | some q =>
      obtain ⟨target, htarget, hfound⟩ := Option.bind_eq_some_iff.mp hrow
      obtain ⟨hq, howner, rfl⟩ := (rowAt?_eq_some_iff hs).mp hfound
      have htarget : Batch.target? (path, leaves) = some q.path := htarget
      obtain ⟨old, hold⟩ := hread q hq
      have hmerge : b.merge q old = Keyed.insertAll old leaves :=
        merge_of_target hdistinct hu howner htarget old
      -- no other row has the path
      have honly : ∀ r ∈ s.rows, r.owner = b.owner.id →
          Batch.target? (path, leaves) = some r.path → r = q := fun r hr hrowner hrtarget =>
        hs.eq_of_path hr hq (hrowner.trans howner.symm)
          (Option.some.inj (hrtarget.symm.trans htarget))
      have hrewritesq : b.rewrites q = !Leaves.same (Keyed.insertAll old leaves) old := by
        rw [Batch.rewrites_eq hold, hmerge]
      simp only [hold]
      by_cases hsame : Leaves.same (Keyed.insertAll old leaves) old = true
      · rw [if_pos hsame]
        refine ⟨[], rfl, .nil, fun e => iff_of_false List.not_mem_nil ?_⟩
        rintro ⟨r, hr, hrowner, hrtarget, hrewrites, -⟩
        rw [honly r hr hrowner hrtarget, hrewritesq, hsame] at hrewrites
        cases hrewrites
      · rw [if_neg hsame]
        rw [Bool.eq_false_iff.mpr hsame] at hrewritesq
        have hedit : b.edit q = .update q.id q.path q.attributes
            (Leaves.text (Keyed.insertAll old leaves)) := by
          rw [Batch.edit, Batch.textAfter_eq hold, hrewritesq, hmerge]
          rfl
        refine ⟨_, rfl, List.pairwise_singleton _ _, fun e => ?_⟩
        rw [List.mem_singleton, ← hedit]
        constructor
        · rintro rfl
          exact ⟨q, hq, howner, htarget, hrewritesq, rfl⟩
        · rintro ⟨r, hr, hrowner, hrtarget, -, rfl⟩
          rw [honly r hr hrowner hrtarget]

/-- The edits of a batch: one for each row that is named and whose leaves change. -/
theorem exists_batchEdits (hs : s.Sound) (hdistinct : b.Distinct)
    (hread : ∀ r ∈ s.rows, ∃ old, Leaves.parse r.attributes = some old)
    {todo : List (String × Leaves)} (hsuffix : todo <:+ b.updates) :
    ∃ edits, batchEdits s b.owner.id todo = .ok edits
      ∧ (edits.Pairwise fun e f => e.place? ≠ f.place?)
      ∧ ∀ e, e ∈ edits ↔ ∃ r ∈ s.rows, r.owner = b.owner.id ∧ IsNamed todo r
        ∧ b.rewrites r = true ∧ e = b.edit r := by
  induction todo with
  | nil => exact ⟨[], rfl, .nil, fun e => by simp [IsNamed]⟩
  | cons u rest ih =>
      obtain ⟨edits, hedits, hpairs, hmem⟩ := ih ((List.suffix_cons _ _).trans hsuffix)
      obtain ⟨own, hown, hownpairs, hownmem⟩ :=
        exists_mergeEdits hs hdistinct hread (hsuffix.subset List.mem_cons_self)
      refine ⟨own ++ edits, batchEdits_cons_eq_ok_iff.mpr ⟨own, edits, hown, hedits, rfl⟩,
        List.pairwise_append.mpr ⟨hownpairs, hpairs, fun e he f hf hplace => ?_⟩, fun e => ?_⟩
      · obtain ⟨r, hr, -, htarget, -, rfl⟩ := (hownmem e).mp he
        obtain ⟨q, hq, -, hnamed, -, rfl⟩ := (hmem f).mp hf
        obtain rfl := hs.eq_of_id hr hq (Option.some.inj hplace)
        exact not_isNamed_of_distinct hdistinct hsuffix htarget hnamed
      · rw [List.mem_append, hownmem, hmem]
        simp only [isNamed_cons, or_and_right, and_or_left, exists_or]

/-! ## Carrying them out -/

/-- Edits of different rows that expect them as they are succeed, and give their rows the
new texts. -/
theorem applyAll_edits (hs : s.Sound) {edits : List Edit}
    (hpairs : edits.Pairwise fun e f => e.place? ≠ f.place?)
    (hmem : ∀ e, e ∈ edits ↔ ∃ r ∈ s.rows, b.rewrites r = true ∧ e = b.edit r) :
    ∃ text summary, applyAll b.owner.id (inOrder edits) s = .ok (s.withTexts text, summary)
      ∧ ∀ r ∈ s.rows, text r.id = b.textAfter r := by
  have hupdates : ∀ e ∈ edits, ∃ r ∈ s.rows, ∃ expected attributes,
      e = .update r.id r.path expected attributes := by
    intro e he
    obtain ⟨r, hr, -, rfl⟩ := (hmem e).mp he
    exact ⟨r, hr, _, _, rfl⟩
  have hstart := withTexts_texts hs
  rw [inOrder_of_updates hupdates]
  rcases @applyAll_updates s b.owner.id edits hupdates hpairs s.texts with
    ⟨id, path, expected, attributes, he, hother, -⟩ | ⟨text, summary, hall, hkept, hset⟩
  · obtain ⟨r, hr, -, hedit⟩ := (hmem _).mp he
    cases hedit
    exact absurd (texts_of_mem hs hr) hother
  · rw [hstart] at hall
    refine ⟨text, summary, hall, fun r hr => ?_⟩
    cases hrewrites : b.rewrites r with
    | true => exact (hset _ _ _ _ ((hmem _).mpr ⟨r, hr, hrewrites, rfl⟩)).2
    | false =>
        rw [Batch.textAfter, hrewrites, if_neg Bool.false_ne_true, ← texts_of_mem hs hr]
        refine hkept r.id fun e he hplace => ?_
        obtain ⟨q, hq, hqrewrites, rfl⟩ := (hmem e).mp he
        obtain rfl := hs.eq_of_id hq hr (Option.some.inj hplace)
        rw [hrewrites] at hqrewrites
        cases hqrewrites

/-- Where only texts change, a summary that tells the rows counts those. -/
theorem Summary.Tells.eq_of_withTexts (hs : s.Sound) {c : Summary} {text : Nat → String}
    (h : c.Tells s.rows (s.withTexts text).rows) :
    c = { updated := s.rows.countP fun r => text r.id ≠ r.attributes } := by
  have hstays : ∀ r ∈ s.rows, { r with attributes := text r.id } ∈ (s.withTexts text).rows :=
    fun r hr => mem_withTexts.mpr ⟨r, hr, rfl⟩
  have hinserted : c.inserted = 0 := by
    rw [h.inserted, List.countP_eq_zero]
    intro r' hr' hnew
    obtain ⟨r, hr, rfl⟩ := mem_withTexts.mp hr'
    exact Row.isNewTo_iff.mp hnew r hr rfl
  have hdeleted : c.deleted = 0 := h.deleted.mpr fun r hr => ⟨_, hstays r hr, rfl⟩
  have hupdated : c.updated = s.rows.countP fun r => text r.id ≠ r.attributes := by
    rw [h.updated]
    refine List.countP_congr fun r hr => ?_
    rw [Row.isRewrittenIn_iff, decide_eq_true_eq]
    constructor
    · rintro ⟨r', hr', hid, hleaves⟩
      obtain ⟨q, hq, rfl⟩ := mem_withTexts.mp hr'
      obtain rfl := hs.eq_of_id hq hr hid
      exact hleaves
    · exact fun hleaves => ⟨_, hstays r hr, rfl, hleaves⟩
  obtain ⟨updated, inserted, deleted⟩ := c
  obtain rfl : inserted = 0 := hinserted
  obtain rfl : deleted = 0 := hdeleted
  obtain rfl : updated = _ := hupdated
  rfl

/-- A batch without doubles gives every row its text after the batch. -/
theorem exists_write (hs : s.Sound)
    (hread : ∀ r ∈ s.rows, ∃ old, Leaves.parse r.attributes = some old)
    (hdistinct : b.Distinct) (hexact : ∀ u ∈ b.updates, u.2.Exact) :
    ∃ text, s.write .readWrite b.owner (.updateBatch b.updates) = (s.withTexts text,
        .ok { updated := s.rows.countP fun r => text r.id ≠ r.attributes })
      ∧ ∀ r ∈ s.rows, text r.id = b.textAfter r := by
  obtain ⟨edits, hedits, hpairs, hnamed⟩ :=
    exists_batchEdits hs hdistinct hread (List.suffix_refl b.updates)
  have hmem : ∀ e, e ∈ edits ↔ ∃ r ∈ s.rows, b.rewrites r = true ∧ e = b.edit r := by
    intro e
    rw [hnamed]
    refine exists_congr fun r => and_congr_right fun _ => ?_
    rw [← and_assoc, ← names_iff]
    exact and_iff_right_of_imp fun h => Batch.names_of_rewrites h.1
  obtain ⟨text, summary, hall, htext⟩ := applyAll_edits hs hpairs hmem
  have hwrite : s.write .readWrite b.owner (.updateBatch b.updates)
      = (s.withTexts text, .ok summary) := by
    rw [Store.write, Write.plan, hedits]
    show (applyWithFallback b.owner.id edits s).map id (Change.answer b.owner) = _
    rw [applyWithFallback, hall]
    rfl
  have hmerged : ∀ leaves ∈ (Write.updateBatch b.updates).merges, leaves.Exact := by
    intro leaves hleaves
    obtain ⟨u, hu, rfl⟩ := List.mem_map.mp hleaves
    exact hexact u hu
  refine ⟨text, ?_, htext⟩
  rw [hwrite, (tells_of_write hs hmerged hwrite).eq_of_withTexts hs]

/-! ## Updates that name nothing -/

theorem mergeEdits_of_not_hasTarget (hs : s.Sound) {owner : Nat} {u : String × Leaves}
    (h : s.hasTarget owner u = false) : mergeEdits s owner u.1 u.2 = .ok [] := by
  rw [mergeEdits]
  cases hrow : (Path.normalize u.1).toOption.bind (s.rowAt? owner) with
  | none => rfl
  | some q =>
      obtain ⟨target, htarget, hfound⟩ := Option.bind_eq_some_iff.mp hrow
      obtain ⟨hq, howner, rfl⟩ := (rowAt?_eq_some_iff hs).mp hfound
      have htarget : Batch.target? u = some q.path := htarget
      have hnot := List.any_eq_false.mp h q hq
      simp [howner, htarget] at hnot

theorem batchEdits_filter (hs : s.Sound) (owner : Nat) (updates : List (String × Leaves)) :
    batchEdits s owner (updates.filter (s.hasTarget owner)) = batchEdits s owner updates := by
  induction updates with
  | nil => rfl
  | cons u rest ih =>
      obtain ⟨path, leaves⟩ := u
      rw [List.filter_cons]
      split
      · rw [batchEdits, batchEdits, ih]
      · rename_i hnot
        have hnone := mergeEdits_of_not_hasTarget hs (Bool.not_eq_true _ ▸ hnot)
        rw [ih, batchEdits, hnone]
        show _ = (batchEdits s owner rest >>= fun more => Except.ok ([] ++ more))
        cases batchEdits s owner rest with
        | error e => rfl
        | ok more => rfl

end

/-! ## A batch and the same batch again -/

/-- Whatever operations have been run, as long as stored leaves are scalars and lists of
scalars, a batch succeeds whose updates are such leaves without doubles and name different
paths.  It changes nothing but the leaves of rows that it names, and counts the rows whose
leaves change; updates that are malformed or name no row have no effect.  All leaves that
are supplied are there afterwards, and all others are kept as they are read back where the
row was rewritten, so leaves without doubles are exactly the former ones with those supplied
in their places.  The same batch rewrites nothing the next time. -/
theorem updateBatch_merges (history : List Operation) {b : Batch}
    (hplain : (Store.empty.after history).Plain) (hdistinct : b.Distinct)
    (hexact : ∀ u ∈ b.updates, u.2.Exact) (hvalid : ∀ u ∈ b.updates, Node.badLeaf? u.2 = none) :
    let s := Store.empty.after history
    ∃ text, s.write .readWrite b.owner (.updateBatch b.updates) = (s.withTexts text,
        .ok { updated := s.rows.countP fun r => text r.id ≠ r.attributes })
      ∧ (s.withTexts text).write .readWrite b.owner (.updateBatch b.updates)
        = (s.withTexts text, .ok {})
      ∧ s.write .readWrite b.owner (.updateBatch (b.updates.filter (s.hasTarget b.owner.id)))
        = s.write .readWrite b.owner (.updateBatch b.updates)
      ∧ ∀ r ∈ s.rows, ∃ old new, b.Merges r (text r.id) old new
        ∧ ((∀ leaf ∈ old, leaf.2.Exact) → new = b.merge r old) := by
  intro s
  have hs : s.Sound := sound_after history
  have hread : ∀ r ∈ s.rows, ∃ old, Leaves.parse r.attributes = some old := fun r hr =>
    (hplain r hr).imp fun _ h => h.1
  obtain ⟨text, hwrite, htext⟩ := exists_write hs hread hdistinct hexact
  have hmerges : ∀ r ∈ s.rows, ∃ old new, b.Merges r (text r.id) old new := by
    intro r hr
    obtain ⟨old, hold, hleaves⟩ := hplain r hr
    rw [htext r hr]
    exact ⟨old, Batch.exists_merges hold (Leaves.badLeaf?_eq_none_iff.mpr hleaves)
      (Batch.supplied_exact hexact) (Batch.supplied_valid hvalid)⟩
  have hs' : (s.withTexts text).Sound := by
    have hsound := hs.write .readWrite b.owner (.updateBatch b.updates)
    rwa [hwrite] at hsound
  refine ⟨text, hwrite, ?_, ?_, fun r hr => ?_⟩
  · -- all that is supplied is there by now
    have hread' : ∀ r ∈ (s.withTexts text).rows, ∃ old, Leaves.parse r.attributes = some old := by
      intro r' hr'
      obtain ⟨r, hr, rfl⟩ := mem_withTexts.mp hr'
      obtain ⟨_, new, hm⟩ := hmerges r hr
      exact ⟨new, hm.after⟩
    obtain ⟨edits, hedits, -, hmem⟩ :=
      exists_batchEdits hs' hdistinct hread' (List.suffix_refl b.updates)
    have hnil : edits = [] := by
      refine List.eq_nil_iff_forall_not_mem.mpr fun e he => ?_
      obtain ⟨r', hr', -, -, hrewrites, -⟩ := (hmem e).mp he
      obtain ⟨r, hr, rfl⟩ := mem_withTexts.mp hr'
      obtain ⟨_, _, hm⟩ := hmerges r hr
      rw [hm.rewrites_after (Batch.supplied_exact hexact)] at hrewrites
      cases hrewrites
    rw [Store.write, Write.plan, hedits, hnil]
    rfl
  · rw [Store.write, Store.write, Write.plan, Write.plan, batchEdits_filter hs]
  · obtain ⟨old, new, hm⟩ := hmerges r hr
    refine ⟨old, new, hm, fun hall => hm.exactly.mpr (.inr fun leaf hleaf _ => ?_)⟩
    obtain ⟨found, hfound, hleaves⟩ := hplain r hr
    obtain rfl := Option.some.inj (hm.before.symm.trans hfound)
    exact Json.reread_of_exact (hall leaf hleaf) (hleaves leaf hleaf)

/-- A batch of two rows in other spellings of their paths, of which one has the leaves
already, with a path that is malformed and one that is not stored. -/
theorem updateBatch_merges_of_skipped_updates :
    let first : Node := .mk "/a[@k='1']" [("x", .array [.string "u"]), ("y", .bool false)] []
    let second : Node := .mk "/b" [("z", .number (.integer 7))] []
    let owner : Owner := ⟨1, 1, "d", "o"⟩
    let history : List Operation := [.request .readWrite (.createDataspace "d"),
      .request .readWrite (.createOwner ⟨1, "d"⟩ "o"),
      .request .readWrite (.write owner (.store [first, second]))]
    let s := Store.empty.after history
    let b : Batch := ⟨owner, [("a", [("y", .null)]),
      ("/a[ @k = \"1\" ]", [("w", .null), ("y", .bool true)]),
      ("/b", [("z", .number (.integer 7))]), ("/c", [("y", .null)])]⟩
    s.Plain ∧ b.Distinct ∧ (∀ u ∈ b.updates, u.2.Exact)
      ∧ (∀ u ∈ b.updates, Node.badLeaf? u.2 = none)
      ∧ ∃ text, s.write .readWrite owner (.updateBatch b.updates) = (s.withTexts text,
          .ok { updated := 1 })
        ∧ (s.withTexts text).write .readWrite owner (.updateBatch b.updates)
          = (s.withTexts text, .ok {})
        ∧ ∀ r ∈ s.rows, ∃ old new, b.Merges r (text r.id) old new := by
  intro first second owner history s b
  obtain ⟨hplain, hcounted⟩ :
      s.Plain ∧ (s.write .readWrite owner (.updateBatch b.updates)).2.toOption
        = some { updated := 1 } := by
    decide +kernel
  have hdistinct : b.Distinct := by decide +kernel
  have hexact : ∀ u ∈ b.updates, u.2.Exact := by
    simp only [b, List.forall_mem_cons, List.not_mem_nil, false_implies, implies_true, and_true,
      Leaves.Exact, Json.Exact, Json.MembersExact, Keyed.Sorted, List.pairwise_cons,
      List.Pairwise.nil]
    decide
  have hvalid : ∀ u ∈ b.updates, Node.badLeaf? u.2 = none := by decide
  obtain ⟨text, hwrite, hagain, -, hmerges⟩ :=
    updateBatch_merges history hplain hdistinct hexact hvalid
  have hcount : (s.write .readWrite owner (.updateBatch b.updates)).2 = .ok { updated := 1 } :=
    toOption_eq_some_iff.mp hcounted
  refine ⟨hplain, hdistinct, hexact, hvalid, text, ?_, hagain, fun r hr => ?_⟩
  · rw [← hcount, hwrite]
  · obtain ⟨old, new, hm, -⟩ := hmerges r hr
    exact ⟨old, new, hm⟩

/-- A double that is kept beside a new leaf is read as another one afterwards. -/
theorem updateBatch_alters_double :
    let double : Json := .number (.double ⟨false, ⟨7421688002070992, -152⟩⟩)
    let owner : Owner := ⟨1, 1, "d", "o"⟩
    let history : List Operation := [.request .readWrite (.createDataspace "d"),
      .request .readWrite (.createOwner ⟨1, "d"⟩ "o"),
      .request .readWrite (.write owner (.store [.mk "/a" [("x", double)] []]))]
    let s := Store.empty.after history
    let written := s.write .readWrite owner (.updateBatch [("/a", [("y", .number (.integer 1))])])
    let read (s : Store) : Option (List String) :=
      ((s.get owner "/a" .nodeOnly).map (List.map fun n => Leaves.text n.leaves)).toOption
    s.Plain ∧ written.2 = .ok { updated := 1 }
      ∧ read s = some ["\x7b\"x\":1.3e-30\x7d"]
      ∧ read written.1 = some ["\x7b\"x\":1.3000000000000001e-30,\"y\":1\x7d"] :=
  ⟨by decide +kernel, toOption_eq_some_iff.mp (by decide +kernel), by decide +kernel,
    by decide +kernel⟩

end DataTree
