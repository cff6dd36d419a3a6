import DataTree.Proofs.Keyed
import DataTree.Proofs.Store.Effect
import Mathlib.Algebra.GroupWithZero.Nat

/-!
# Edits carried out in turn

Edits are applied in one of two ways: all of them in one transaction, or,
when that meets a conflict and is undone, each in a transaction of its own.
Both come to the same: the edits take their turns, and one that conflicts
when its turn comes is skipped without a trace.

## Main definitions

* `inTurn` — the store after the turns, the edits done, and those skipped.
* `Unfaulted` — whether the engine refuses no edit when its turn comes.
* `untilFault`, `firstFault?` — the edits that come before one that it refuses, and
  what it refuses that for.
* `counts` — how many rows the edits done have changed.

## Main results

* `applyEach_eq`, `applyAll_eq` — both ways are described by `inTurn`.
* `applyWithFallback_eq_inTurn` — so is the one followed by the other.
* `applyWithFallback_of_faulted` — what the engine leaves when it refuses an
  edit.
* `applyWithFallback_keeps`, `applyAsUnit_keeps` — what every edit keeps, a
  whole write keeps.
-/

namespace DataTree

/-! ## Counts -/

namespace Summary

theorem add_assoc (a b c : Summary) : (a.add b).add c = a.add (b.add c) := by
  simp [add, Nat.add_assoc]

@[simp] theorem empty_add (a : Summary) : Summary.add {} a = a := by
  simp [add]

end Summary

/-- How many rows an edit inserts. -/
def Edit.inserted : Edit → Nat
  | .insert _ draft => draft.paths.length
  | _ => 0

/-- How many rows edits have changed: one for each update, one for each row of
a draft that was inserted, one for each removal. -/
def counts (done : List Edit) : Summary where
  updated := done.countP Edit.isUpdate
  inserted := (done.map Edit.inserted).sum
  deleted := done.countP Edit.isRemove

theorem Draft.length_paths (d : Draft) : d.paths.length = d.size := by
  rw [← d.map_path_rows 0 none 0, List.length_map, d.length_rows]

theorem counts_cons (e : Edit) (done : List Edit) :
    counts (e :: done) = e.tally.add (counts done) := by
  cases e with
  | remove id path =>
      simp [counts, Edit.tally, Summary.add, Edit.isUpdate, Edit.isRemove, Edit.inserted,
        List.countP_cons, Nat.add_comm]
  | update id path expected attributes =>
      simp [counts, Edit.tally, Summary.add, Edit.isUpdate, Edit.isRemove, Edit.inserted,
        List.countP_cons, Nat.add_comm]
  | insert parent draft =>
      simp [counts, Edit.tally, Summary.add, Edit.isUpdate, Edit.isRemove, Edit.inserted,
        Draft.length_paths]

/-! ## Order -/

/-- Ordering only moves edits. -/
theorem inOrder_perm (edits : List Edit) : (inOrder edits).Perm edits := by
  induction edits with
  | nil => exact .nil
  | cons e rest ih =>
      cases e with
      | remove id path => exact ih.cons _
      | update id path expected attributes =>
          refine List.Perm.trans ?_ (ih.cons _)
          rw [inOrder, inOrder, List.append_assoc, List.append_assoc]
          exact List.perm_middle
      | insert parent d =>
          refine List.Perm.trans ?_ (ih.cons _)
          exact List.perm_middle

/-- Removals and updates have their turns before insertions. -/
theorem inOrder_eq (edits : List Edit) :
    ∃ front, (∀ e ∈ front, e.isInsert = false) ∧
      inOrder edits = front ++ edits.filter Edit.isInsert := by
  refine ⟨edits.filter Edit.isRemove ++ edits.filter Edit.isUpdate, fun e he => ?_, rfl⟩
  rcases List.mem_append.mp he with he | he
  · have hkind := (List.mem_filter.mp he).2
    cases e with
    | remove id path => rfl
    | update id path expected attributes => cases hkind
    | insert parent d => cases hkind
  · have hkind := (List.mem_filter.mp he).2
    cases e with
    | remove id path => cases hkind
    | update id path expected attributes => rfl
    | insert parent d => cases hkind

/-- Before a removal only removals have their turns. -/
theorem isRemove_of_before {edits front rest : List Edit} {e : Edit}
    (h : inOrder edits = front ++ e :: rest) (he : e.isRemove = true) :
    ∀ f ∈ front, f.isRemove = true := by
  have hpairs : (inOrder edits).Pairwise fun f g => g.isRemove = true → f.isRemove = true := by
    rw [inOrder, List.append_assoc, List.pairwise_append]
    refine ⟨List.pairwise_of_forall_mem_list fun f hf _ _ _ => (List.mem_filter.mp hf).2,
      List.pairwise_of_forall_mem_list fun _ _ g hg hremove => ?_,
      fun f hf _ _ _ => (List.mem_filter.mp hf).2⟩
    rcases List.mem_append.mp hg with hg | hg
    · have hkind := (List.mem_filter.mp hg).2
      cases g with
      | remove id path => cases hkind
      | _ => cases hremove
    · have hkind := (List.mem_filter.mp hg).2
      cases g with
      | insert parent d => cases hremove
      | _ => cases hkind
  rw [h, List.pairwise_append] at hpairs
  exact fun f hf => hpairs.2.2 f hf e List.mem_cons_self he

/-! ## Turns -/

/-- What became of edits that took their turns. -/
structure Turns where
  store : Store
  /-- The edits that took effect. -/
  done : List Edit
  /-- What the others conflicted with, and at which paths. -/
  skipped : List (String × Conflict)

/-- Edits carried out one after the other: each has its whole effect, or
conflicts with the store as it is at its turn and has none. -/
def inTurn (owner : Nat) : List Edit → Store → Turns
  | [], s => ⟨s, [], []⟩
  | e :: rest, s =>
    match e.conflict? owner s with
    | none =>
      let later := inTurn owner rest (e.effect owner s)
      { later with done := e :: later.done }
    | some conflict =>
      let later := inTurn owner rest s
      { later with skipped := conflict :: later.skipped }

/-- The store after the turn of one edit. -/
def Edit.turn (owner : Nat) (s : Store) (e : Edit) : Store :=
  if (e.conflict? owner s).isNone then e.effect owner s else s

/-- Whether the engine refuses no edit when its turn comes. -/
def Unfaulted (owner : Nat) : List Edit → Store → Prop
  | [], _ => True
  | e :: rest, s => ¬e.Faults owner s ∧ Unfaulted owner rest (e.turn owner s)

instance (owner : Nat) (s : Store) (e : Edit) : Decidable (e.Faults owner s) :=
  match e with
  | .remove id _ => inferInstanceAs (Decidable (s.hasRow id = true
      ∧ s.goesTooDeep (fun r => r.id = id) 0 = true))
  | .update .. => inferInstanceAs (Decidable False)
  | .insert parent draft => inferInstanceAs (Decidable (draft.path ∉ s.pathsOf owner
      ∧ ¬(s.hasOwner owner = true ∧ parent.all s.hasRow = true)))

instance decidableUnfaulted (owner : Nat) :
    (edits : List Edit) → (s : Store) → Decidable (Unfaulted owner edits s)
  | [], _ => inferInstanceAs (Decidable True)
  | e :: rest, s =>
    have := decidableUnfaulted owner rest (e.turn owner s)
    inferInstanceAs (Decidable (¬e.Faults owner s ∧ Unfaulted owner rest (e.turn owner s)))

section

variable {owner : Nat} {e : Edit} {rest edits : List Edit} {s : Store}

theorem inTurn_cons_of_free (h : e.conflict? owner s = none) :
    inTurn owner (e :: rest) s =
      { inTurn owner rest (e.effect owner s) with
          done := e :: (inTurn owner rest (e.effect owner s)).done } := by
  rw [inTurn, h]

theorem inTurn_cons_of_conflict {conflict : String × Conflict}
    (h : e.conflict? owner s = some conflict) :
    inTurn owner (e :: rest) s =
      { inTurn owner rest s with
          skipped := conflict :: (inTurn owner rest s).skipped } := by
  rw [inTurn, h]

theorem turn_of_free (h : e.conflict? owner s = none) : e.turn owner s = e.effect owner s := by
  rw [Edit.turn, h]
  rfl

theorem turn_of_conflict {conflict : String × Conflict} (h : e.conflict? owner s = some conflict) :
    e.turn owner s = s := by
  rw [Edit.turn, h]
  rfl

/-- Edits that take their turns after others. -/
theorem inTurn_append (front back : List Edit) (s : Store) :
    inTurn owner (front ++ back) s =
      { store := (inTurn owner back (inTurn owner front s).store).store
        done := (inTurn owner front s).done ++ (inTurn owner back (inTurn owner front s).store).done
        skipped := (inTurn owner front s).skipped
          ++ (inTurn owner back (inTurn owner front s).store).skipped } := by
  induction front generalizing s with
  | nil => rfl
  | cons e front ih =>
      rw [List.cons_append]
      cases hconflict : e.conflict? owner s with
      | none =>
          rw [inTurn_cons_of_free hconflict, inTurn_cons_of_free hconflict, ih]
          rfl
      | some conflict =>
          rw [inTurn_cons_of_conflict hconflict, inTurn_cons_of_conflict hconflict, ih]
          rfl

theorem unfaulted_append (front back : List Edit) (s : Store) :
    Unfaulted owner (front ++ back) s ↔
      Unfaulted owner front s ∧ Unfaulted owner back (inTurn owner front s).store := by
  induction front generalizing s with
  | nil => simp [Unfaulted, inTurn]
  | cons e front ih =>
      rw [List.cons_append, Unfaulted, Unfaulted, ih, and_assoc]
      cases hconflict : e.conflict? owner s with
      | none => rw [turn_of_free hconflict, inTurn_cons_of_free hconflict]
      | some conflict => rw [turn_of_conflict hconflict, inTurn_cons_of_conflict hconflict]

/-- What is done is one of the edits. -/
theorem mem_of_mem_done {f : Edit} (h : f ∈ (inTurn owner edits s).done) : f ∈ edits := by
  induction edits generalizing s with
  | nil => cases h
  | cons e rest ih =>
      cases hconflict : e.conflict? owner s with
      | none =>
          rw [inTurn_cons_of_free hconflict] at h
          rcases List.mem_cons.mp h with rfl | h
          · exact List.mem_cons_self
          · exact List.mem_cons_of_mem e (ih h)
      | some conflict =>
          rw [inTurn_cons_of_conflict hconflict] at h
          exact List.mem_cons_of_mem e (ih h)

/-- Where none is skipped all are done. -/
theorem done_of_unskipped (h : (inTurn owner edits s).skipped = []) :
    (inTurn owner edits s).done = edits := by
  induction edits generalizing s with
  | nil => rfl
  | cons e rest ih =>
      cases hconflict : e.conflict? owner s with
      | none =>
          rw [inTurn_cons_of_free hconflict] at h ⊢
          exact congrArg (e :: ·) (ih h)
      | some conflict =>
          rw [inTurn_cons_of_conflict hconflict] at h
          cases h

/-- What is skipped has met a conflict when its turn came. -/
theorem exists_conflict_of_mem_skipped {c : String × Conflict}
    (h : c ∈ (inTurn owner edits s).skipped) : ∃ e ∈ edits, ∃ t, e.conflict? owner t = some c := by
  induction edits generalizing s with
  | nil => cases h
  | cons e rest ih =>
      cases hconflict : e.conflict? owner s with
      | none =>
          rw [inTurn_cons_of_free hconflict] at h
          obtain ⟨f, hf, t, hfc⟩ := ih h
          exact ⟨f, List.mem_cons_of_mem e hf, t, hfc⟩
      | some conflict =>
          rw [inTurn_cons_of_conflict hconflict] at h
          rcases List.mem_cons.mp h with rfl | hc
          · exact ⟨e, List.mem_cons_self, s, hconflict⟩
          · obtain ⟨f, hf, t, hfc⟩ := ih hc
            exact ⟨f, List.mem_cons_of_mem e hf, t, hfc⟩

/-- Insertions are skipped as duplicates. -/
theorem duplicate_of_mem_skipped (h : ∀ e ∈ edits, e.isInsert = true) :
    ∀ c ∈ (inTurn owner edits s).skipped, c.2 = .duplicate := by
  intro c hc
  obtain ⟨e, he, t, hconflict⟩ := exists_conflict_of_mem_skipped hc
  rw [Edit.kind_of_conflict hconflict, h e he, if_pos rfl]

/-- Removals and updates are skipped as stale. -/
theorem stale_of_mem_skipped (h : ∀ e ∈ edits, e.isInsert = false) :
    ∀ c ∈ (inTurn owner edits s).skipped, c.2 = .stale := by
  intro c hc
  obtain ⟨e, he, t, hconflict⟩ := exists_conflict_of_mem_skipped hc
  rw [Edit.kind_of_conflict hconflict, h e he, if_neg Bool.false_ne_true]

/-- Edits that each are applied by themselves take their turns. -/
theorem applyEach_eq (h : Unfaulted owner edits s) (summary : Summary) (skipped : Keyed Conflict) :
    applyEach owner edits summary skipped s =
      ((inTurn owner edits s).store,
        .ok (.of (summary.add (counts (inTurn owner edits s).done))
          (Keyed.insertAll skipped (inTurn owner edits s).skipped))) := by
  induction edits generalizing summary skipped s with
  | nil => rfl
  | cons e rest ih =>
      obtain ⟨hfault, hrest⟩ := h
      have happly := applies_apply owner e s
      rw [applyEach]
      generalize e.apply owner s = result at happly ⊢
      cases happly with
      | done _ hfree =>
          rw [turn_of_free hfree] at hrest
          simp only
          rw [ih hrest, inTurn_cons_of_free hfree, counts_cons, Summary.add_assoc]
      | conflict _ hconflict =>
          rw [turn_of_conflict hconflict] at hrest
          simp only
          rw [ih hrest, inTurn_cons_of_conflict hconflict]
          rfl
      | fault hfault' => exact absurd hfault' hfault

/-- Edits that are applied together take their turns, or the first conflict
stops them all. -/
theorem applyAll_eq (h : Unfaulted owner edits s) :
    applyAll owner edits s =
      match (inTurn owner edits s).skipped with
      | [] => .ok ((inTurn owner edits s).store, counts (inTurn owner edits s).done)
      | (path, kind) :: _ => .error (.conflict path kind) := by
  induction edits generalizing s with
  | nil => rfl
  | cons e rest ih =>
      obtain ⟨hfault, hrest⟩ := h
      have happly := applies_apply owner e s
      rw [applyAll]
      generalize e.apply owner s = result at happly ⊢
      cases happly with
      | done _ hfree =>
          rw [turn_of_free hfree] at hrest
          simp only
          rw [ih hrest, inTurn_cons_of_free hfree, counts_cons]
          cases (inTurn owner rest (e.effect owner s)).skipped with
          | nil => rfl
          | cons conflict more => rfl
      | conflict _ hconflict =>
          rw [inTurn_cons_of_conflict hconflict]
      | fault hfault' => exact absurd hfault' hfault

/-! ## Faults -/

/-- The edits that have their turns before the engine refuses one. -/
def untilFault (owner : Nat) : List Edit → Store → List Edit
  | [], _ => []
  | e :: rest, s =>
    if e.Faults owner s then [] else e :: untilFault owner rest (e.turn owner s)

/-- What the engine refuses the first edit for that it refuses, if there is one. -/
def firstFault? (owner : Nat) : List Edit → Store → Option EngineFault
  | [], _ => none
  | e :: rest, s =>
      if e.Faults owner s then some e.fault else firstFault? owner rest (e.turn owner s)

theorem firstFault?_eq_none_iff : firstFault? owner edits s = none ↔ Unfaulted owner edits s := by
  induction edits generalizing s with
  | nil => simp [firstFault?, Unfaulted]
  | cons e rest ih =>
      rw [firstFault?, Unfaulted, ← ih]
      split <;> simp [*]

theorem exists_firstFault (h : ¬Unfaulted owner edits s) :
    ∃ fault, firstFault? owner edits s = some fault :=
  Option.ne_none_iff_exists'.mp (mt firstFault?_eq_none_iff.mp h)

/-- Edits are refused for one of them, which meets the store that the edits before it
leave. -/
theorem exists_fault {fault : EngineFault} (h : firstFault? owner edits s = some fault) :
    ∃ e rest, edits = untilFault owner edits s ++ e :: rest ∧ fault = e.fault
      ∧ e.Faults owner (inTurn owner (untilFault owner edits s) s).store := by
  induction edits generalizing s with
  | nil => cases h
  | cons e rest ih =>
      rw [firstFault?] at h
      rw [untilFault]
      by_cases hfault : e.Faults owner s
      · rw [if_pos hfault] at h ⊢
        exact ⟨e, rest, rfl, (Option.some.inj h).symm, hfault⟩
      · rw [if_neg hfault] at h ⊢
        obtain ⟨f, later, hsplit, hf, hfaults⟩ := ih h
        refine ⟨f, later, congrArg (e :: ·) hsplit, hf, ?_⟩
        cases hconflict : e.conflict? owner s with
        | none =>
            rw [turn_of_free hconflict] at hfaults ⊢
            rwa [inTurn_cons_of_free hconflict]
        | some conflict =>
            rw [turn_of_conflict hconflict] at hfaults ⊢
            rwa [inTurn_cons_of_conflict hconflict]

/-- None of the edits before a fault is refused. -/
theorem unfaulted_untilFault (owner : Nat) (edits : List Edit) (s : Store) :
    Unfaulted owner (untilFault owner edits s) s := by
  induction edits generalizing s with
  | nil => trivial
  | cons e rest ih =>
      rw [untilFault]
      split
      · trivial
      · rename_i hfault
        exact ⟨hfault, ih _⟩

/-- Edits that each are applied by themselves stay done up to the fault. -/
theorem applyEach_of_faulted {fault : EngineFault} (h : firstFault? owner edits s = some fault)
    (summary : Summary) (skipped : Keyed Conflict) :
    applyEach owner edits summary skipped s =
      ((inTurn owner (untilFault owner edits s) s).store, .error fault) := by
  induction edits generalizing summary skipped s with
  | nil => cases h
  | cons e rest ih =>
      rw [firstFault?] at h
      have happly := applies_apply owner e s
      rw [applyEach, untilFault]
      generalize e.apply owner s = result at happly ⊢
      cases happly with
      | done hfault hfree =>
          rw [if_neg hfault, turn_of_free hfree] at h
          rw [if_neg hfault, turn_of_free hfree, inTurn_cons_of_free hfree]
          exact ih h _ _
      | conflict hfault hconflict =>
          rw [if_neg hfault, turn_of_conflict hconflict] at h
          rw [if_neg hfault, turn_of_conflict hconflict, inTurn_cons_of_conflict hconflict]
          exact ih h _ _
      | fault hfault =>
          rw [if_pos hfault] at h
          rw [if_pos hfault, ← Option.some.inj h]
          rfl

/-- Edits that are applied together stop at the fault, or at a conflict
before it. -/
theorem applyAll_of_faulted {fault : EngineFault} (h : firstFault? owner edits s = some fault) :
    applyAll owner edits s =
      match (inTurn owner (untilFault owner edits s) s).skipped with
      | [] => .error (.engine fault)
      | (path, kind) :: _ => .error (.conflict path kind) := by
  induction edits generalizing s with
  | nil => cases h
  | cons e rest ih =>
      rw [firstFault?] at h
      have happly := applies_apply owner e s
      rw [applyAll, untilFault]
      generalize e.apply owner s = result at happly ⊢
      cases happly with
      | done hfault hfree =>
          rw [if_neg hfault, turn_of_free hfree] at h
          rw [if_neg hfault, turn_of_free hfree, inTurn_cons_of_free hfree]
          simp only
          rw [ih h]
          cases (inTurn owner (untilFault owner rest (e.effect owner s))
            (e.effect owner s)).skipped with
          | nil => rfl
          | cons conflict more => rfl
      | conflict hfault hconflict =>
          rw [if_neg hfault, turn_of_conflict hconflict, inTurn_cons_of_conflict hconflict]
      | fault hfault =>
          rw [if_pos hfault] at h
          rw [if_pos hfault, ← Option.some.inj h]
          rfl

/-- A write that the engine refuses leaves no trace, unless a conflict came
before the fault: then the edits between stay done. -/
theorem applyWithFallback_of_faulted {fault : EngineFault}
    (h : firstFault? owner (inOrder edits) s = some fault) :
    applyWithFallback owner edits s =
      (if (inTurn owner (untilFault owner (inOrder edits) s) s).skipped = [] then s
        else (inTurn owner (untilFault owner (inOrder edits) s) s).store,
        .error fault) := by
  rw [applyWithFallback, applyAll_of_faulted h]
  cases (inTurn owner (untilFault owner (inOrder edits) s) s).skipped with
  | nil => rfl
  | cons conflict more => exact applyEach_of_faulted h {} []

/-- The engine refuses an edit at its turn exactly if it ends the write. -/
theorem unfaulted_iff :
    Unfaulted owner (inOrder edits) s ↔
      ∃ applied, (applyWithFallback owner edits s).2 = .ok applied := by
  constructor
  · intro h
    rw [applyWithFallback, applyAll_eq h]
    cases (inTurn owner (inOrder edits) s).skipped with
    | nil => exact ⟨_, rfl⟩
    | cons conflict more =>
        rw [applyEach_eq h]
        exact ⟨_, rfl⟩
  · rintro ⟨applied, happlied⟩
    by_contra h
    obtain ⟨fault, hfault⟩ := exists_firstFault h
    rw [applyWithFallback_of_faulted hfault] at happlied
    cases happlied

/-! ## Both ways together -/

theorem Applied.of_ofList {skipped : List (String × Conflict)} (h : skipped ≠ [])
    (summary : Summary) :
    Applied.of summary (Keyed.ofList skipped) = .partly summary (Keyed.ofList skipped) := by
  rw [Applied.of, if_neg]
  rw [List.isEmpty_iff, Keyed.ofList_eq_nil_iff]
  exact h

theorem applyWithFallback_eq (h : Unfaulted owner (inOrder edits) s) :
    applyWithFallback owner edits s = ((inTurn owner (inOrder edits) s).store,
      .ok (.of (counts (inTurn owner (inOrder edits) s).done)
        (Keyed.ofList (inTurn owner (inOrder edits) s).skipped))) := by
  rw [applyWithFallback, applyAll_eq h]
  cases hskipped : (inTurn owner (inOrder edits) s).skipped with
  | nil => rfl
  | cons conflict more =>
      simp only
      rw [applyEach_eq h, hskipped, Summary.empty_add]
      rfl

/-- Edits of which the engine refuses none take their turns, removals first,
then updates, then insertions.  If none of them conflicts the write is
complete; otherwise it reports, for each path at which one was skipped, the
conflict of the last one skipped there. -/
theorem applyWithFallback_eq_inTurn (h : Unfaulted owner (inOrder edits) s) :
    ((inTurn owner (inOrder edits) s).skipped = [] →
      applyWithFallback owner edits s = ((inTurn owner (inOrder edits) s).store,
        .ok (.complete (counts (inTurn owner (inOrder edits) s).done))))
    ∧ ((inTurn owner (inOrder edits) s).skipped ≠ [] → ∃ failures : Keyed Conflict,
      applyWithFallback owner edits s = ((inTurn owner (inOrder edits) s).store,
        .ok (.partly (counts (inTurn owner (inOrder edits) s).done) failures))
      ∧ Keyed.Sorted failures ∧ ∀ path, Keyed.find? path failures
        = Keyed.lastAt path (inTurn owner (inOrder edits) s).skipped) := by
  rw [applyWithFallback_eq h]
  constructor
  · intro hnil
    rw [hnil]
    rfl
  · intro hskipped
    refine ⟨Keyed.ofList (inTurn owner (inOrder edits) s).skipped, ?_, Keyed.sorted_ofList _,
      fun path => Keyed.find?_ofList path _⟩
    rw [Applied.of_ofList hskipped]

/-- A subtree that meets a taken path below its root is skipped whole, after
the removal of a row that is not there; the other subtree gets the next id. -/
theorem applyWithFallback_eq_inTurn_of_two_conflicts :
    let s : Store := { owners := [⟨1, 1, "o"⟩], rows := [⟨1, 1, "/a", none, ""⟩], lastRow := 1 }
    let edits : List Edit := [.insert none (.mk "/b" "" [.mk "/c" "" [], .mk "/a" "" []]),
      .insert none (.mk "/d" "" []), .remove 7 "/e"]
    Unfaulted 1 (inOrder edits) s
      ∧ (inTurn 1 (inOrder edits) s).store
        = { s with rows := s.rows ++ [⟨2, 1, "/d", none, ""⟩], lastRow := 2 }
      ∧ ∃ failures, applyWithFallback 1 edits s = ((inTurn 1 (inOrder edits) s).store,
          .ok (.partly { inserted := 1 } failures))
        ∧ Keyed.find? "/a" failures = some .duplicate
        ∧ Keyed.find? "/e" failures = some .stale := by
  intro s edits
  have hunfaulted : Unfaulted 1 (inOrder edits) s := by decide +kernel
  obtain ⟨failures, hresult, -, hfailures⟩ :=
    (applyWithFallback_eq_inTurn hunfaulted).2 (by decide +kernel)
  refine ⟨hunfaulted, by decide +kernel, failures, hresult, ?_, ?_⟩
  · rw [hfailures]
    decide +kernel
  · rw [hfailures]
    decide +kernel

end

/-! ## What turns keep -/

section

variable {owner : Nat} {edits : List Edit} {s s' : Store} {I : Store → Prop}

/-- What every edit of a list keeps, unless it faults or conflicts, is kept by
applying each of them, whether the engine ends that early or not. -/
theorem applyEach_keeps
    (hstep : ∀ e ∈ edits, ∀ s, I s → ¬e.Faults owner s → e.conflict? owner s = none →
      I (e.effect owner s))
    (h : I s) (summary : Summary) (skipped : Keyed Conflict) :
    I (applyEach owner edits summary skipped s).1 := by
  induction edits generalizing summary skipped s with
  | nil => exact h
  | cons e rest ih =>
      have hrest := fun e he => hstep e (List.mem_cons_of_mem _ he)
      have happly := applies_apply owner e s
      rw [applyEach]
      generalize e.apply owner s = result at happly ⊢
      cases happly with
      | done hfault hfree => exact ih hrest (hstep e List.mem_cons_self s h hfault hfree) _ _
      | conflict _ _ => exact ih hrest h _ _
      | fault _ => exact h

theorem applyAll_keeps
    (hstep : ∀ e ∈ edits, ∀ s, I s → ¬e.Faults owner s → e.conflict? owner s = none →
      I (e.effect owner s))
    (h : I s) {summary : Summary} (hall : applyAll owner edits s = .ok (s', summary)) : I s' := by
  induction edits generalizing summary s with
  | nil =>
      cases hall
      exact h
  | cons e rest ih =>
      have hrest := fun e he => hstep e (List.mem_cons_of_mem _ he)
      have happly := applies_apply owner e s
      rw [applyAll] at hall
      generalize e.apply owner s = result at happly hall
      cases happly with
      | done hfault hfree =>
          simp only at hall
          split at hall
          · cases hall
          · rename_i hmore
            cases hall
            exact ih hrest (hstep e List.mem_cons_self s h hfault hfree) hmore
      | conflict _ _ => cases hall
      | fault _ => cases hall

theorem applyWithFallback_keeps
    (hstep : ∀ e ∈ edits, ∀ s, I s → ¬e.Faults owner s → e.conflict? owner s = none →
      I (e.effect owner s))
    (h : I s) : I (applyWithFallback owner edits s).1 := by
  have hordered := fun e (he : e ∈ inOrder edits) => hstep e (mem_inOrder.mp he)
  unfold applyWithFallback
  split
  · rename_i hall
    exact applyAll_keeps hordered h hall
  · exact h
  · exact applyEach_keeps hordered h _ _

theorem insert_ne_nil {α : Type} (key : String) (value : α) (m : Keyed α) :
    Keyed.insert key value m ≠ [] := by
  intro hnil
  have hfind := Keyed.find?_insert_self key value m
  rw [hnil] at hfind
  cases hfind

/-- A conflict that was met once is still reported at the end. -/
theorem skipped_of_applyThrough {summary total : Summary} {skipped all : Keyed Conflict}
    (h : applyThrough owner edits summary skipped s = .ok (s', total, all))
    (hskipped : skipped ≠ []) : all ≠ [] := by
  induction edits generalizing summary skipped s with
  | nil =>
      cases h
      exact hskipped
  | cons e rest ih =>
      rw [applyThrough] at h
      split at h
      · exact ih h hskipped
      · exact ih h (insert_ne_nil _ _ _)
      · cases h

/-- Edits that meet no conflict in one transaction are applied as they are
all together. -/
theorem applyAll_of_applyThrough {summary total : Summary} {skipped : Keyed Conflict}
    (h : applyThrough owner edits summary skipped s = .ok (s', total, [])) :
    ∃ own, applyAll owner edits s = .ok (s', own) ∧ total = summary.add own := by
  induction edits generalizing summary skipped s with
  | nil =>
      cases h
      exact ⟨{}, rfl, rfl⟩
  | cons e rest ih =>
      rw [applyThrough] at h
      rw [applyAll]
      split at h
      · rename_i s₁ one happly
        obtain ⟨own, hall, htotal⟩ := ih h
        rw [happly]
        simp only
        rw [hall]
        exact ⟨one.add own, rfl, by rw [htotal, Summary.add_assoc]⟩
      · exact absurd rfl (skipped_of_applyThrough h (insert_ne_nil _ _ _))
      · cases h

theorem applyAsUnit_keeps
    (hstep : ∀ e ∈ edits, ∀ s, I s → ¬e.Faults owner s → e.conflict? owner s = none →
      I (e.effect owner s))
    (h : I s) : I (applyAsUnit owner edits s).1 := by
  have hordered := fun e (he : e ∈ inOrder edits) => hstep e (mem_inOrder.mp he)
  unfold applyAsUnit
  split
  · exact h
  · rename_i s₁ summary skipped hthrough
    split
    · rename_i hempty
      rw [List.isEmpty_iff.mp hempty] at hthrough
      obtain ⟨own, hall, -⟩ := applyAll_of_applyThrough hthrough
      exact applyAll_keeps hordered h hall
    · exact h

end

end DataTree
