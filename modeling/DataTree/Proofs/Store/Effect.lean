import DataTree.Proofs.Store.Insertion

/-!
# What one edit does

Whether an edit conflicts, whether the engine refuses it, and what it does
otherwise can each be read off the store it meets.  So an edit is described
here without the partial work that a refused insertion leaves behind.

## Main definitions

* `Edit.conflict?` — what an edit conflicts with, and at which path.
* `Edit.Faults`, `Edit.fault` — whether the engine refuses an edit, and for what.
* `Edit.effect`, `Edit.tally` — the store after an edit, and what it counts.

## Main results

* `apply_eq_ok_iff`, `apply_eq_conflict_iff`, `apply_eq_engine_iff` — an edit
  that is applied has its effect, meets its conflict, or faults.
* `Edit.kind_of_conflict` — insertions meet taken paths, others stale rows.
-/

namespace DataTree

namespace Edit

/-- What an edit conflicts with, and at which path: a removal or an update
whose row is not as expected, an insertion one of whose paths is taken. -/
def conflict? (owner : Nat) (s : Store) : Edit → Option (String × Conflict)
  | remove id path => if s.hasRow id then none else some (path, .stale)
  | update id path expected _ =>
    if s.rows.any fun r => r.id = id && r.attributes = expected then none
    else some (path, .stale)
  | insert _ draft => (firstTaken (s.pathsOf owner) draft.paths).map fun p => (p, .duplicate)

/-- Whether the engine refuses an edit: a removal of a row that has others too far below
it, or an insertion at a free path for an owner, or under a row, that is not there. -/
def Faults (owner : Nat) (s : Store) : Edit → Prop
  | remove id _ => s.hasRow id = true ∧ s.goesTooDeep (fun r => r.id = id) 0 = true
  | update .. => False
  | insert parent draft =>
    draft.path ∉ s.pathsOf owner ∧ ¬(s.hasOwner owner = true ∧ parent.all s.hasRow = true)

/-- What an edit is refused with, if the engine refuses it. -/
def fault : Edit → EngineFault
  | remove .. | update .. => .deepCascade
  | insert .. => .foreignKey

/-- The store after an edit that meets neither. -/
def effect (owner : Nat) (s : Store) : Edit → Store
  | remove id _ => (s.removeRows fun r => r.id = id).1
  | update id _ _ attributes =>
    { s with rows := s.rows.map fun r =>
        if r.id = id then { r with attributes := attributes } else r }
  | insert parent draft => s.grow (draft.rows owner parent (s.lastRow + 1))

/-- What an edit adds to the counts of a write. -/
def tally : Edit → Summary
  | remove .. => { deleted := 1 }
  | update .. => { updated := 1 }
  | insert _ draft => { inserted := draft.size }

section

variable {owner : Nat} {s : Store}

/-- Insertions meet taken paths, and other edits stale rows. -/
theorem kind_of_conflict {e : Edit} {conflict : String × Conflict}
    (h : e.conflict? owner s = some conflict) :
    conflict.2 = if e.isInsert then .duplicate else .stale := by
  cases e with
  | remove id path =>
      rw [conflict?] at h
      split at h <;> cases h
      rfl
  | update id path expected attributes =>
      rw [conflict?] at h
      split at h <;> cases h
      rfl
  | insert parent d =>
      rw [conflict?, Option.map_eq_some_iff] at h
      obtain ⟨taken, -, rfl⟩ := h
      rfl

/-- Only insertions are duplicates. -/
theorem isInsert_of_duplicate {e : Edit} {path : String}
    (h : e.conflict? owner s = some (path, .duplicate)) : e.isInsert = true := by
  have hkind := kind_of_conflict h
  cases hinsert : e.isInsert with
  | true => rfl
  | false =>
      rw [hinsert] at hkind
      cases hkind

/-- A removal or an update conflicts only as stale. -/
theorem stale_iff_of_not_insert {e : Edit} (he : e.isInsert = false) :
    (∃ path, e.conflict? owner s = some (path, .stale)) ↔ ¬e.conflict? owner s = none := by
  constructor
  · rintro ⟨path, hstale⟩ hnone
    cases hnone.symm.trans hstale
  · intro hsome
    obtain ⟨⟨path, kind⟩, hconflict⟩ := Option.ne_none_iff_exists'.mp hsome
    have hkind : kind = .stale := by
      rw [show kind = _ from kind_of_conflict hconflict, he, if_neg Bool.false_ne_true]
    exact ⟨path, hkind ▸ hconflict⟩

theorem conflict?_remove_eq_none_iff {id : Nat} {path : String} :
    (remove id path).conflict? owner s = none ↔ s.hasRow id = true := by
  rw [conflict?]
  split <;> simp [*]

theorem conflict?_update_eq_none_iff {id : Nat} {path expected attributes : String} :
    (update id path expected attributes).conflict? owner s = none ↔
      ∃ r ∈ s.rows, r.id = id ∧ r.attributes = expected := by
  have hany : (s.rows.any fun r => r.id = id && r.attributes = expected) = true ↔
      ∃ r ∈ s.rows, r.id = id ∧ r.attributes = expected := by
    simp
  rw [← hany, conflict?]
  split <;> simp [*]

theorem conflict?_insert_eq_none_iff {parent : Option Nat} {d : Draft} :
    (insert parent d).conflict? owner s = none ↔ firstTaken (s.pathsOf owner) d.paths = none :=
  Option.map_eq_none_iff

/-- After an update the row it names has other leaves. -/
theorem mem_effect_update_iff {id : Nat} {path expected attributes : String} {r' : Row} :
    r' ∈ ((update id path expected attributes).effect owner s).rows ↔
      ∃ r ∈ s.rows, (r.id = id ∧ r' = { r with attributes := attributes })
        ∨ (r.id ≠ id ∧ r' = r) := by
  rw [effect, List.mem_map]
  refine exists_congr fun r => and_congr_right fun _ => ?_
  by_cases hr : r.id = id
  · simp [hr, eq_comm]
  · simp [hr, eq_comm]

theorem hasRow_effect_update {id : Nat} {path expected attributes : String} (x : Nat) :
    ((update id path expected attributes).effect owner s).hasRow x = true ↔
      s.hasRow x = true := by
  rw [Store.hasRow_iff, Store.hasRow_iff]
  constructor
  · rintro ⟨r', hr', rfl⟩
    obtain ⟨r, hr, ⟨-, rfl⟩ | ⟨-, rfl⟩⟩ := mem_effect_update_iff.mp hr'
    · exact ⟨r, hr, rfl⟩
    · exact ⟨r', hr, rfl⟩
  · rintro ⟨r, hr, rfl⟩
    by_cases hid : r.id = id
    · exact ⟨_, mem_effect_update_iff.mpr ⟨r, hr, .inl ⟨hid, rfl⟩⟩, rfl⟩
    · exact ⟨r, mem_effect_update_iff.mpr ⟨r, hr, .inr ⟨hid, rfl⟩⟩, rfl⟩

end

end Edit

/-- An edit that is applied does exactly one of three things. -/
inductive Applies (owner : Nat) (e : Edit) (s : Store) :
    Store × Except EditFault Summary → Prop where
  | done : ¬e.Faults owner s → e.conflict? owner s = none →
      Applies owner e s (e.effect owner s, .ok e.tally)
  | conflict {path : String} {kind : Conflict} {left : Store} :
      ¬e.Faults owner s → e.conflict? owner s = some (path, kind) →
        Applies owner e s (left, .error (.conflict path kind))
  | fault {left : Store} : e.Faults owner s →
      Applies owner e s (left, .error (.engine e.fault))

theorem applies_insert (owner : Nat) (parent : Option Nat) (d : Draft) (s : Store) :
    Applies owner (.insert parent d) s ((Edit.insert parent d).apply owner s) := by
  by_cases hroot : d.path ∈ s.pathsOf owner
  · have hfirst : firstTaken (s.pathsOf owner) d.paths = some d.path := by
      obtain ⟨path, attributes, children⟩ := d
      exact if_pos hroot
    rw [Edit.apply, insertDraft_of_root_taken hroot]
    exact .conflict (fun hfault => hfault.1 hroot) (by rw [Edit.conflict?, hfirst]; rfl)
  · by_cases hthere : s.hasOwner owner = true ∧ parent.all s.hasRow = true
    · have hfault : ¬(Edit.insert parent d).Faults owner s := fun hfault => hfault.2 hthere
      cases hfirst : firstTaken (s.pathsOf owner) d.paths with
      | none =>
          rw [Edit.apply, insertDraft_of_free d s parent hthere.1 hthere.2 hfirst]
          exact .done hfault (by rw [Edit.conflict?, hfirst]; rfl)
      | some taken =>
          have htaken := insertDraft_of_taken d s parent hthere.1 hthere.2 hfirst
          rw [Edit.apply]
          generalize insertDraft owner parent d s = result at htaken ⊢
          obtain ⟨left, outcome⟩ := result
          cases htaken
          exact .conflict hfault (by rw [Edit.conflict?, hfirst]; rfl)
    · rw [Edit.apply, insertDraft_of_missing hthere hroot]
      exact .fault ⟨hroot, hthere⟩

theorem applies_apply (owner : Nat) (e : Edit) (s : Store) :
    Applies owner e s (e.apply owner s) := by
  cases e with
  | remove id path =>
      rw [Edit.apply]
      split
      · rename_i hrow
        split
        · rename_i hdeep
          exact .fault ⟨hrow, hdeep⟩
        · rename_i hdeep
          exact .done (fun hfault => hdeep hfault.2) (if_pos hrow)
      · rename_i hrow
        exact .conflict (fun hfault => hrow hfault.1) (if_neg hrow)
  | update id path expected attributes =>
      rw [Edit.apply, Store.updateRow]
      by_cases hrow : (s.rows.any fun r => r.id = id && r.attributes = expected) = true
      · rw [if_pos hrow]
        exact .done not_false (if_pos hrow)
      · rw [if_neg hrow]
        exact .conflict not_false (if_neg hrow)
  | insert parent d => exact applies_insert owner parent d s

/-- A removal or an update that conflicts leaves the store as it is. -/
theorem apply_of_conflict {owner : Nat} {e : Edit} {s : Store} {conflict : String × Conflict}
    (he : e.isInsert = false) (h : e.conflict? owner s = some conflict) :
    (e.apply owner s).1 = s := by
  cases e with
  | remove id path =>
      have hrow : ¬s.hasRow id = true := fun hrow => by
        rw [Edit.conflict?_remove_eq_none_iff.mpr hrow] at h
        cases h
      rw [Edit.apply, if_neg hrow]
  | update id path expected attributes =>
      have hrow : ¬(s.rows.any fun r => r.id = id && r.attributes = expected) = true := by
        intro hrow
        rw [Edit.conflict?, if_pos hrow] at h
        cases h
      rw [Edit.apply, Store.updateRow, if_neg hrow]
  | insert parent d => cases he

section Outcomes

variable {owner : Nat} {e : Edit} {s s' : Store}

theorem apply_eq_ok_iff {one : Summary} :
    e.apply owner s = (s', .ok one) ↔
      ¬e.Faults owner s ∧ e.conflict? owner s = none ∧ s' = e.effect owner s ∧ one = e.tally := by
  have happly := applies_apply owner e s
  constructor
  · intro h
    rw [h] at happly
    cases happly with
    | done hfault hnone => exact ⟨hfault, hnone, rfl, rfl⟩
  · rintro ⟨hfault, hnone, rfl, rfl⟩
    generalize e.apply owner s = result at happly ⊢
    cases happly with
    | done _ _ => rfl
    | conflict _ hsome =>
        rw [hnone] at hsome
        cases hsome
    | fault hfault' => exact absurd hfault' hfault

theorem apply_eq_conflict_iff {path : String} {kind : Conflict} :
    (e.apply owner s).2 = .error (.conflict path kind) ↔
      ¬e.Faults owner s ∧ e.conflict? owner s = some (path, kind) := by
  have happly := applies_apply owner e s
  generalize e.apply owner s = result at happly ⊢
  cases happly with
  | done hfault hnone =>
      rw [hnone]
      simp
  | conflict hfault hsome =>
      rw [hsome]
      simp [hfault]
  | fault hfault => simp [hfault]

theorem apply_eq_engine_iff {fault : EngineFault} :
    (e.apply owner s).2 = .error (.engine fault) ↔
      e.Faults owner s ∧ fault = e.fault := by
  have happly := applies_apply owner e s
  generalize e.apply owner s = result at happly ⊢
  cases happly with
  | done hfault hnone => simp [hfault]
  | conflict hfault hsome => simp [hfault]
  | fault hfault => simp [hfault, eq_comm]

end Outcomes

end DataTree
