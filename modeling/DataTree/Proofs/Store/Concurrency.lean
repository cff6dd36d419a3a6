import DataTree.Proofs.Store.Apart
import DataTree.Proofs.Store.Reachable

/-!
# Rows that changed underneath a write

A write that nothing else comes between can still be told that its rows
changed.  Its edits were planned against one store and are carried out one
after the other, so two of them may name one row, or rows one of which is
below the other.  That takes a batch that spells one path in two ways, or
trees that are listed twice or inside each other.

## Main definitions

* `StoreError.comesLate` — the errors met while a plan is carried out.
* `Write.rewrites` — the writes that change rows as they were read.
* `Write.Aliases` — whether a write names one row twice.

## Main results

* `calm_plan` — no plan meets one of these errors.
* `concurrent_iff_spoiled` — when a write is told that its rows changed.
-/

namespace DataTree

/-! ## Plans -/

def StoreError.isConcurrent : StoreError → Bool
  | .concurrent .. => true
  | _ => false

/-- Whether an error is met while a plan is carried out, and not before. -/
def StoreError.comesLate : StoreError → Bool
  | .engine _ | .alreadyStored .. | .concurrent .. => true
  | _ => false

/-- A part of a plan, which meets none of the errors that come later. -/
def Calm {α : Type} (x : Outcome α) : Prop := ∀ e, x = .error e → e.comesLate = false

namespace Calm

variable {α β : Type}

theorem ok (a : α) : Calm (.ok a : Outcome α) := FailsWith.ok a

theorem error {e : StoreError} (h : e.comesLate = false) : Calm (.error e : Outcome α) :=
  FailsWith.error h

theorem bind {x : Outcome α} {f : α → Outcome β} (hx : Calm x) (hf : ∀ a, Calm (f a)) :
    Calm (x >>= f) :=
  FailsWith.bind hx hf

theorem map {x : Outcome α} (hx : Calm x) (f : α → β) : Calm (x.map f) := FailsWith.map hx f

theorem mapError {ε : Type} {f : ε → StoreError} (hf : ∀ e, (f e).comesLate = false)
    (x : Except ε α) : Calm (x.mapError f) :=
  FailsWith.mapError hf x

end Calm

/-! ### Reconciliations -/

/-- Leaves are compared as values, and only that can fail. -/
theorem failsWith_leafEdits (r : Row) (attributes : String) :
    FailsWith (· = .unreadableLeaves) (leafEdits r attributes) := by
  rw [leafEdits]
  split
  · exact .ok _
  · exact .error rfl

mutual
theorem failsWith_reconcile (rows : List Row) (r : Row) :
    (d : Draft) → FailsWith (· = .unreadableLeaves) (reconcile rows r d)
  | .mk path attributes children => by
    rw [reconcile]
    refine .bind (failsWith_leafEdits r attributes) fun own => ?_
    exact .bind (failsWith_reconcileChildren rows _ _ children) fun below => .ok _

theorem failsWith_reconcileChildren (rows : List Row) (parent : Option Nat) (stored : List Row) :
    (ds : List Draft) →
      FailsWith (· = .unreadableLeaves) (reconcileChildren rows parent stored ds)
  | [] => .ok _
  | d :: rest => by
    rw [reconcileChildren]
    have hrest := failsWith_reconcileChildren rows parent (rowsBut stored d.path) rest
    split
    · exact .bind (failsWith_reconcile rows _ d) fun own => .bind hrest fun more => .ok _
    · exact .bind (.ok _) fun own => .bind hrest fun more => .ok _
end

theorem calm_reconcile (rows : List Row) (r : Row) (d : Draft) : Calm (reconcile rows r d) := by
  intro e h
  rw [failsWith_reconcile rows r d e h]
  rfl

theorem calm_reconcileChildren (rows : List Row) (parent : Option Nat) (stored : List Row)
    (ds : List Draft) : Calm (reconcileChildren rows parent stored ds) := by
  intro e h
  rw [failsWith_reconcileChildren rows parent stored ds e h]
  rfl

/-! ### Every plan -/

section

variable (s : Store) (owner : Owner)

theorem calm_batchEdits (owner : Nat) (updates : List (String × Leaves)) :
    Calm (batchEdits s owner updates) := by
  induction updates with
  | nil => exact .ok _
  | cons u rest ih =>
      refine .bind ?_ fun own => .bind ih fun more => .ok _
      rw [mergeEdits]
      split
      · exact .ok _
      · split
        · exact .error rfl
        · exact .ok _

theorem calm_updateEdits (owner : Nat) (ds : List Draft) : Calm (updateEdits s owner ds) := by
  induction ds with
  | nil => exact .ok _
  | cons d rest ih =>
      rw [updateEdits]
      split
      · exact .bind (calm_reconcile _ _ d) fun own => .bind ih fun more => .ok _
      · exact .bind (.ok _) fun own => .bind ih fun more => .ok _

theorem calm_drafts (n : Node) : Calm n.drafts := by
  rw [Node.drafts]
  split
  · exact .error rfl
  · split
    · split
      · exact .mapError (fun _ => rfl) _
      · exact .error rfl
    · exact .mapError (fun _ => rfl) _

theorem calm_draftsOfAll (nodes : List Node) : Calm (Node.draftsOfAll nodes) := by
  induction nodes with
  | nil => exact .ok _
  | cons n rest ih =>
      rw [Node.draftsOfAll]
      split
      · rename_i e hn
        exact .error (calm_drafts n e hn)
      · split
        · rename_i e hrest
          exact .error (ih e hrest)
        · exact .ok _

theorem calm_draftsUnder (parent : String) (nodes : List Node) :
    Calm (draftsUnder parent nodes) := by
  induction nodes with
  | nil => exact .ok _
  | cons n rest ih =>
      rw [draftsUnder]
      refine .bind (calm_drafts n) fun ds => ?_
      split
      · exact .error rfl
      · exact .bind ih fun more => .ok _

theorem calm_parentNamed (path : String) : Calm (s.parentNamed owner path) := by
  rw [Store.parentNamed]
  split
  · exact .ok _
  · refine .map ?_ _
    rw [Store.rowNamed]
    refine .bind (.mapError (fun _ => rfl) _) fun target => ?_
    split
    · exact .ok _
    · exact .error rfl

theorem calm_listAddress (path : String) : Calm (listAddress path) := by
  rw [listAddress]
  refine .bind (.mapError (fun _ => rfl) _) fun q => ?_
  split
  · exact .ok _
  · exact .error rfl

theorem calm_planReplaceList (parent : String) (elements : List Node) :
    Calm (planReplaceList s owner parent elements) := by
  cases elements with
  | nil => exact .error rfl
  | cons first rest =>
      rw [planReplaceList]
      refine .bind (calm_parentNamed s owner parent) fun target => ?_
      refine .bind (calm_draftsUnder target.2 _) fun ds => ?_
      refine .bind (calm_listAddress first.path) fun address => ?_
      simp only
      split
      · exact .error rfl
      · exact .bind (calm_reconcileChildren _ _ _ ds) fun es => .ok _

/-! ## Answers -/

variable {s owner}

theorem skippedPaths_eq_nil_iff {kind : Conflict} {skipped : Keyed Conflict} :
    skippedPaths kind skipped = [] ↔ ∀ e ∈ skipped, e.2 ≠ kind := by
  rw [skippedPaths, List.map_eq_nil_iff, List.filter_eq_nil_iff]
  simp only [decide_eq_true_eq, ne_eq]

/-- Some skipped edits are answered with changed rows exactly if no path was
taken. -/
theorem answer_partly_concurrent_iff {summary : Summary} {skipped : Keyed Conflict} :
    (∃ name paths, (Applied.partly summary skipped).answer owner = .error (.concurrent name paths))
      ↔ ∀ e ∈ skipped, e.2 ≠ .duplicate := by
  rw [← skippedPaths_eq_nil_iff, Applied.answer]
  split
  · rename_i hnil
    simp [hnil]
  · rename_i hne
    constructor
    · rintro ⟨name, paths, h⟩
      cases h
    · intro hnil
      exact absurd hnil hne

/-- An insertion that is skipped is the last to be skipped at its path, or
another insertion is. -/
theorem ofList_skipped_ne_duplicate_iff {id : Nat} {edits : List Edit} :
    (∀ c ∈ Keyed.ofList (inTurn id (inOrder edits) s).skipped, c.2 ≠ .duplicate)
      ↔ ∀ c ∈ (inTurn id (inOrder edits) s).skipped, c.2 ≠ .duplicate := by
  have hlast : ∀ {path kind}, (path, kind) ∈ Keyed.ofList (inTurn id (inOrder edits) s).skipped ↔
      Keyed.lastAt path (inTurn id (inOrder edits) s).skipped = some kind := by
    intro path kind
    rw [← (Keyed.sorted_ofList _).find?_eq_some_iff, Keyed.find?_ofList]
  obtain ⟨front, hfront, horder⟩ := inOrder_eq edits
  have hstale : ∀ c ∈ (inTurn id front s).skipped, c.2 = .stale := stale_of_mem_skipped hfront
  have hduplicate : ∀ c ∈ (inTurn id (edits.filter Edit.isInsert)
      (inTurn id front s).store).skipped, c.2 = .duplicate :=
    duplicate_of_mem_skipped fun e he => (List.mem_filter.mp he).2
  constructor
  · rintro hnone ⟨path, kind⟩ hc rfl
    rw [horder, inTurn_append] at hc
    rcases List.mem_append.mp hc with hc | hc
    · cases hstale _ hc
    · obtain ⟨last, hfound⟩ := Keyed.exists_lastAt hc
      have hkind : last = .duplicate := hduplicate _ (Keyed.mem_of_lastAt hfound)
      refine hnone (path, .duplicate) (hlast.mpr ?_) rfl
      rw [horder, inTurn_append, Keyed.lastAt_append, hfound, hkind, Option.some_or]
  · rintro hnone ⟨path, kind⟩ hmem rfl
    exact hnone _ (Keyed.mem_of_lastAt (hlast.mp hmem)) rfl

/-- Edits of a plan are answered with changed rows exactly if one of them
spoils a later one, and neither the engine nor a taken path comes up. -/
theorem commit_edits_concurrent_iff (hs : s.Sound) {edits : List Edit}
    (hplanned : ∀ e ∈ edits, e.Planned owner.id s) :
    (∃ name paths, (Change.commit s owner (.edits edits)).2 = .error (.concurrent name paths)) ↔
      Unfaulted owner.id (inOrder edits) s
        ∧ (∀ c ∈ (inTurn owner.id (inOrder edits) s).skipped, c.2 ≠ .duplicate)
        ∧ ¬(inOrder edits).Pairwise fun e f => ¬e.Spoils s.rows f := by
  have hanswer : (Change.commit s owner (.edits edits)).2
      = Change.answer owner (applyWithFallback owner.id edits s).2 := rfl
  rw [hanswer]
  by_cases hunfaulted : Unfaulted owner.id (inOrder edits) s
  · have hstale := stale_not_mem_skipped_iff hs (.start hs)
      (fun e he => hplanned e (mem_inOrder.mp he)) hunfaulted
    simp only [List.not_mem_nil, false_implies, implies_true, true_and] at hstale
    rw [← hstale]
    by_cases hskipped : (inTurn owner.id (inOrder edits) s).skipped = []
    · rw [applyWithFallback_eq hunfaulted, hskipped]
      constructor
      · rintro ⟨name, paths, h⟩
        cases h
      · rintro ⟨-, -, hsome⟩
        exact absurd (by simp) hsome
    · rw [applyWithFallback_eq hunfaulted, Applied.of_ofList hskipped, Change.answer,
        answer_partly_concurrent_iff, ofList_skipped_ne_duplicate_iff]
      constructor
      · intro hnone
        refine ⟨hunfaulted, hnone, fun hall => ?_⟩
        obtain ⟨c, hc⟩ := List.exists_mem_of_ne_nil _ hskipped
        cases hkind : c.2 with
        | stale => exact hall c hc hkind
        | duplicate => exact hnone c hc hkind
      · rintro ⟨-, hnone, -⟩
        exact hnone
  · constructor
    · rintro ⟨name, paths, h⟩
      cases happlied : (applyWithFallback owner.id edits s).2 with
      | ok applied => exact absurd (unfaulted_iff.mpr ⟨applied, happlied⟩) hunfaulted
      | error fault =>
          rw [happlied] at h
          cases h
    · rintro ⟨h, -⟩
      exact absurd h hunfaulted

/-! ## Units -/

theorem applyThrough_append (id : Nat) (front back : List Edit) (summary : Summary)
    (skipped : Keyed Conflict) (s : Store) :
    applyThrough id (front ++ back) summary skipped s =
      (applyThrough id front summary skipped s).bind fun result =>
        applyThrough id back result.2.1 result.2.2 result.1 := by
  induction front generalizing summary skipped s with
  | nil => rfl
  | cons e rest ih =>
      rw [List.cons_append, applyThrough, applyThrough]
      split
      · exact ih _ _ _
      · exact ih _ _ _
      · rfl

/-- Removals and updates that are skipped leave the store as it is, so where they go
through one transaction the engine refuses none of them at its turn. -/
theorem unfaulted_of_applyThrough {id : Nat} {edits : List Edit} {summary total : Summary}
    {skipped all : Keyed Conflict} {t : Store} (hedits : ∀ e ∈ edits, e.isInsert = false)
    (h : applyThrough id edits summary skipped s = .ok (t, total, all)) :
    Unfaulted id edits s := by
  induction edits generalizing summary skipped s with
  | nil => trivial
  | cons e rest ih =>
      have hrest := fun f hf => hedits f (List.mem_cons_of_mem e hf)
      rw [applyThrough] at h
      split at h
      · rename_i s₁ one happly
        obtain ⟨hfault, hfree, rfl, -⟩ := apply_eq_ok_iff.mp happly
        refine ⟨hfault, ?_⟩
        rw [turn_of_free hfree]
        exact ih hrest h
      · rename_i left path kind happly
        obtain ⟨hfault, hconflict⟩ := apply_eq_conflict_iff.mp (congrArg Prod.snd happly)
        have hleft : left = s := by
          rw [← apply_of_conflict (hedits e List.mem_cons_self) hconflict, happly]
        rw [hleft] at h
        refine ⟨hfault, ?_⟩
        rw [turn_of_conflict hconflict]
        exact ih hrest h
      · cases h

/-- Edits without a conflict go through one transaction as they are. -/
theorem applyThrough_of_free {id : Nat} {edits : List Edit} (h : Unfaulted id edits s)
    (hnone : (inTurn id edits s).skipped = []) (summary : Summary) (skipped : Keyed Conflict) :
    ∃ total, applyThrough id edits summary skipped s
      = .ok ((inTurn id edits s).store, total, skipped) := by
  induction edits generalizing summary s with
  | nil => exact ⟨summary, rfl⟩
  | cons e rest ih =>
      obtain ⟨hfault, hrest⟩ := h
      cases hconflict : e.conflict? id s with
      | none =>
          rw [turn_of_free hconflict] at hrest
          rw [inTurn_cons_of_free hconflict] at hnone ⊢
          rw [applyThrough, apply_eq_ok_iff.mpr ⟨hfault, hconflict, rfl, rfl⟩]
          exact ih hrest hnone _
      | some conflict =>
          rw [inTurn_cons_of_conflict hconflict] at hnone
          cases hnone

theorem applyThrough_inserts {id : Nat} {edits : List Edit} {summary total : Summary}
    {skipped all : Keyed Conflict} {t : Store} (hedits : ∀ e ∈ edits, e.isInsert = true)
    (hskipped : ∀ c ∈ skipped, c.2 = .duplicate)
    (h : applyThrough id edits summary skipped s = .ok (t, total, all)) :
    ∀ c ∈ all, c.2 = .duplicate := by
  induction edits generalizing summary skipped s with
  | nil =>
      cases h
      exact hskipped
  | cons e rest ih =>
      have hrest := fun f hf => hedits f (List.mem_cons_of_mem e hf)
      rw [applyThrough] at h
      split at h
      · exact ih hrest hskipped h
      · rename_i left path kind happly
        refine ih hrest (fun c hc => ?_) h
        rcases Keyed.mem_insert hc with rfl | hc
        · have hconflict := (apply_eq_conflict_iff.mp (congrArg Prod.snd happly)).2
          have hskip : (inTurn id [e] s).skipped = [(path, kind)] := by
            rw [inTurn_cons_of_conflict hconflict]
            rfl
          have hone : ∀ f ∈ [e], f.isInsert = true := fun f hf =>
            hedits f (List.mem_singleton.mp hf ▸ List.mem_cons_self)
          exact duplicate_of_mem_skipped hone (path, kind) (hskip ▸ List.mem_cons_self)
        · exact hskipped c hc
      · cases h

/-- Edits that keep apart are applied as a unit or refused, but not because a
row changed. -/
theorem commit_unit_not_concurrent (hs : s.Sound) {edits : List Edit}
    (hplanned : ∀ e ∈ edits, e.Planned owner.id s) (hapart : edits.Pairwise (Apart s.rows)) :
    ∀ name paths, (Change.commit s owner (.unit edits)).2 ≠ .error (.concurrent name paths) := by
  intro name paths h
  obtain ⟨front, hfront, horder⟩ := inOrder_eq edits
  have hpairs := not_spoils_inOrder hapart
  rw [horder, List.pairwise_append] at hpairs
  have hanswer : (Change.commit s owner (.unit edits)).2
      = Change.answer owner (applyAsUnit owner.id edits s).2 := rfl
  rw [hanswer, applyAsUnit, horder, applyThrough_append] at h
  cases hthrough : applyThrough owner.id front {} [] s with
  | error fault =>
      rw [hthrough] at h
      cases h
  | ok result =>
      have hunfaulted : Unfaulted owner.id front s := unfaulted_of_applyThrough hfront hthrough
      have hplannedFront : ∀ e ∈ front, e.Planned owner.id s := fun e he =>
        hplanned e (mem_inOrder.mp (by rw [horder]; exact List.mem_append_left _ he))
      have hnone : (inTurn owner.id front s).skipped = [] := by
        rw [List.eq_nil_iff_forall_not_mem]
        intro c hc
        refine (stale_not_mem_skipped_iff hs (.start hs) hplannedFront hunfaulted).mpr
          ⟨by simp, hpairs.1⟩ c hc ?_
        exact stale_of_mem_skipped hfront c hc
      obtain ⟨total, hfree⟩ := applyThrough_of_free hunfaulted hnone {} []
      rw [hfree, Except.bind] at h
      split at h
      · cases h
      · rename_i t summary skipped hback
        have hduplicate := applyThrough_inserts (fun e he => (List.mem_filter.mp he).2)
          (by simp) hback
        split at h
        · cases h
        · rename_i hskipped
          have hanswer : Applied.answer owner (.partly {} skipped)
              = .error (.concurrent name paths) := h
          have hnever := answer_partly_concurrent_iff.mp ⟨name, paths, hanswer⟩
          obtain ⟨c, hc⟩ := List.exists_mem_of_ne_nil skipped (by simpa using hskipped)
          exact hnever c hc (hduplicate c hc)

/-! ## Writes -/

/-- Whether a write changes rows as they were when it read them. -/
def Write.rewrites : Write → Bool
  | .updateLeaves .. | .updateBatch _ | .updateTrees _ | .replaceList .. => true
  | _ => false

/-- Whether a write names one row twice, or as a tree a row and one below
it. -/
def Write.Aliases (s : Store) (owner : Owner) : Write → Prop
  | .updateBatch updates => ¬(batchRows s owner.id updates).Nodup
  | .updateTrees nodes => ∃ ds, Node.draftsOfAll nodes = .ok ds
      ∧ ¬(treeRows s owner.id ds).Pairwise (Unnested s.rows)
  | _ => False

/-- No plan is refused for what can only come up when it is carried out. -/
theorem calm_plan (s : Store) (owner : Owner) (w : Write) : Calm (w.plan s owner) := by
  have hadd : ∀ parent nodes, Calm (planAdd s owner parent nodes) := fun parent nodes =>
    .bind (calm_parentNamed s owner parent) fun target =>
      .bind (calm_draftsUnder target.2 nodes) fun ds => .ok _
  have hremoval : ∀ path rows, Calm (removalOf owner path rows) := by
    intro path rows
    rw [removalOf]
    split
    · exact .error rfl
    · exact .ok _
  cases w with
  | store nodes => exact .map (calm_draftsOfAll nodes) _
  | add parent nodes => exact hadd parent nodes
  | addList parent elements =>
      rw [Write.plan, planAddList]
      split
      · exact .error rfl
      · exact hadd parent elements
  | updateLeaves path leaves =>
      refine .bind (.mapError (fun _ => rfl) _) fun target => ?_
      exact .bind (calm_batchEdits s owner.id _) fun es => .ok _
  | updateBatch updates => exact .map (calm_batchEdits s owner.id updates) _
  | updateTrees nodes =>
      refine .bind (calm_draftsOfAll nodes) fun ds => ?_
      exact .bind (calm_updateEdits s owner.id ds) fun es => .ok _
  | replaceList parent elements => exact calm_planReplaceList s owner parent elements
  | delete path =>
      rw [Write.plan, planDelete]
      split
      · exact .ok _
      · exact .bind (.mapError (fun _ => rfl) _) fun target => hremoval path _
  | deleteMany paths =>
      rw [Write.plan, planDeleteMany]
      split
      · exact .ok _
      · split
        · exact .ok _
        · exact .error rfl
  | deleteList path =>
      refine .bind (.mapError (fun _ => rfl) _) fun q => ?_
      simp only
      split
      · exact .error rfl
      · exact hremoval path _
  | deleteAll => exact .ok _

/-- The edits of a write that names each row once keep apart. -/
theorem plan_apart (hs : s.Sound) {w : Write} {edits : List Edit} (hw : w.rewrites = true)
    (haliases : ¬w.Aliases s owner)
    (hplan : w.plan s owner = .ok (.edits edits) ∨ w.plan s owner = .ok (.unit edits)) :
    edits.Pairwise (Apart s.rows) := by
  cases w with
  | updateLeaves path leaves =>
      rcases hplan with hplan | hplan
      · obtain ⟨target, -, h⟩ := bind_eq_ok_iff.mp hplan
        obtain ⟨es, hes, h⟩ := bind_eq_ok_iff.mp h
        cases h
        obtain ⟨own, more, hown, hmore, rfl⟩ := batchEdits_cons_eq_ok_iff.mp hes
        cases hmore
        rcases mergeEdits_eq_ok hown with rfl | ⟨r, -, attributes, rfl⟩
        · exact .nil
        · exact List.pairwise_singleton _ _
      · obtain ⟨target, -, h⟩ := bind_eq_ok_iff.mp hplan
        obtain ⟨es, -, h⟩ := bind_eq_ok_iff.mp h
        cases h
  | updateBatch updates =>
      rcases hplan with hplan | hplan
      · obtain ⟨es, hes, heq⟩ := map_eq_ok_iff.mp hplan
        cases heq
        exact batchEdits_apart hs (not_not.mp haliases) hes
      · obtain ⟨es, -, heq⟩ := map_eq_ok_iff.mp hplan
        cases heq
  | updateTrees nodes =>
      rcases hplan with hplan | hplan
      · obtain ⟨ds, hds, h⟩ := bind_eq_ok_iff.mp hplan
        obtain ⟨es, hes, h⟩ := bind_eq_ok_iff.mp h
        cases h
        refine updateEdits_apart hs (sound_of_draftsOfAll hds) ?_ hes
        by_contra hnested
        exact haliases ⟨ds, hds, hnested⟩
      · obtain ⟨ds, -, h⟩ := bind_eq_ok_iff.mp hplan
        obtain ⟨es, -, h⟩ := bind_eq_ok_iff.mp h
        cases h
  | replaceList parent elements =>
      rcases hplan with hplan | hplan
      · obtain ⟨id, stored, ds, es, -, -, -, heq⟩ := planReplaceList_eq_ok hs hplan
        cases heq
      · obtain ⟨id, stored, ds, es, hstored, hds, hes, heq⟩ := planReplaceList_eq_ok hs hplan
        cases heq
        exact reconcileChildren_apart hs ds
          (fun q hq => ⟨(hstored q hq).1, (hstored q hq).2.1⟩)
          (fun q hq => (hstored q hq).2.2) hds hes
  | store nodes => cases hw
  | add parent nodes => cases hw
  | addList parent elements => cases hw
  | delete path => cases hw
  | deleteMany paths => cases hw
  | deleteList path => cases hw
  | deleteAll => cases hw

/-- What a rewriting write is planned as, if it is. -/
theorem plan_of_rewrites (hs : s.Sound) {w : Write} {change : Change} (hw : w.rewrites = true)
    (hplan : w.plan s owner = .ok change) :
    (∃ edits, change = .edits edits)
      ∨ ∃ edits, change = .unit edits ∧ edits.Pairwise (Apart s.rows) := by
  cases w with
  | updateLeaves path leaves =>
      obtain ⟨target, -, h⟩ := bind_eq_ok_iff.mp hplan
      obtain ⟨es, -, h⟩ := bind_eq_ok_iff.mp h
      cases h
      exact .inl ⟨es, rfl⟩
  | updateBatch updates =>
      obtain ⟨es, -, rfl⟩ := map_eq_ok_iff.mp hplan
      exact .inl ⟨es, rfl⟩
  | updateTrees nodes =>
      obtain ⟨ds, -, h⟩ := bind_eq_ok_iff.mp hplan
      obtain ⟨es, -, h⟩ := bind_eq_ok_iff.mp h
      cases h
      exact .inl ⟨es, rfl⟩
  | replaceList parent elements =>
      have hplan' : planReplaceList s owner parent elements = .ok change := hplan
      obtain ⟨id, stored, ds, es, -, -, -, rfl⟩ := planReplaceList_eq_ok hs hplan'
      exact .inr ⟨es, rfl, plan_apart hs hw not_false (.inr hplan)⟩
  | store nodes => cases hw
  | add parent nodes => cases hw
  | addList parent elements => cases hw
  | delete path => cases hw
  | deleteMany paths => cases hw
  | deleteList path => cases hw
  | deleteAll => cases hw

theorem write_concurrent_iff (hs : s.Sound) (access : Access) {w : Write}
    (hw : w.rewrites = true) :
    (∃ name paths, (s.write access owner w).2 = .error (.concurrent name paths)) ↔
      ∃ edits, w.plan s owner = .ok (.edits edits) ∧ access = .readWrite
        ∧ Unfaulted owner.id (inOrder edits) s
        ∧ (∀ c ∈ (inTurn owner.id (inOrder edits) s).skipped, c.2 ≠ .duplicate)
        ∧ ¬(inOrder edits).Pairwise fun e f => ¬e.Spoils s.rows f := by
  rw [Store.write]
  cases hplan : w.plan s owner with
  | error e =>
      constructor
      · rintro ⟨name, paths, h⟩
        have hcalm := calm_plan s owner w e hplan
        rw [Except.error.inj h] at hcalm
        cases hcalm
      · rintro ⟨edits, h, -⟩
        cases h
  | ok change =>
      have hplanned := plan_planned hs hplan
      rcases plan_of_rewrites hs hw hplan with ⟨edits, rfl⟩ | ⟨edits, rfl, hapart⟩
      · have hcommit := commit_edits_concurrent_iff hs hplanned
        cases access with
        | readWrite =>
            show (∃ name paths, (Change.commit s owner (.edits edits)).2 = _) ↔ _
            rw [hcommit]
            constructor
            · intro h
              exact ⟨edits, rfl, rfl, h⟩
            · rintro ⟨edits', heq, -, h⟩
              cases heq
              exact h
        | readOnly =>
            constructor
            · rintro ⟨name, paths, h⟩
              cases edits with
              | nil => cases h
              | cons e rest => cases h
            · rintro ⟨edits', -, haccess, -⟩
              cases haccess
      · constructor
        · rintro ⟨name, paths, h⟩
          simp only at h
          split at h
          · cases h
          · exact absurd h (commit_unit_not_concurrent hs hplanned hapart name paths)
        · rintro ⟨edits', heq, -⟩
          cases heq

/-- A write that rewrites rows is told that they changed exactly if one of
its own edits spoils a later one, while the engine refuses none and no path
to insert is taken.  That takes a write that names a row twice, or as a tree
a row and one below it. -/
theorem concurrent_iff_spoiled (h : Reachable s) (access : Access) (owner : Owner) {w : Write}
    (hw : w.rewrites = true) :
    ((∃ name paths, (s.write access owner w).2 = .error (.concurrent name paths)) ↔
      ∃ edits, w.plan s owner = .ok (.edits edits) ∧ access = .readWrite
        ∧ Unfaulted owner.id (inOrder edits) s
        ∧ (∀ c ∈ (inTurn owner.id (inOrder edits) s).skipped, c.2 ≠ .duplicate)
        ∧ ¬(inOrder edits).Pairwise fun e f => ¬e.Spoils s.rows f)
    ∧ (¬w.Aliases s owner →
      ∀ name paths, (s.write access owner w).2 ≠ .error (.concurrent name paths)) := by
  have hs := sound_of_reachable h
  refine ⟨write_concurrent_iff hs access hw, fun haliases name paths hanswer => ?_⟩
  obtain ⟨edits, hplan, -, -, -, hspoiled⟩ :=
    (write_concurrent_iff hs access hw).mp ⟨name, paths, hanswer⟩
  exact hspoiled (not_spoils_inOrder (plan_apart hs hw haliases (.inl hplan)))

/-- Two rows, updated in one batch under two spellings. -/
theorem concurrent_iff_spoiled_of_two_rows :
    let owner : Owner := ⟨1, 1, "d", "o"⟩
    ∃ s, Reachable s ∧ ∀ name paths,
      (s.write .readWrite owner (.updateBatch
        [("/a[@k=\"1\"]", [("x", .bool true)]), ("/b", [("x", .bool true)])])).2
        ≠ .error (.concurrent name paths) := by
  intro owner
  have hreach := Reachable.empty
    |>.step .readWrite (.createDataspace "d")
    |>.step .readWrite (.createOwner ⟨1, "d"⟩ "o")
    |>.step .readWrite (.write owner (.store [.leafless "/a[@k='1']", .leafless "/b"]))
  refine ⟨_, hreach, (concurrent_iff_spoiled hreach .readWrite owner rfl).2 ?_⟩
  show ¬¬_
  rw [not_not]
  decide +kernel

/-- A batch that spells the path of one row in two ways is told that the row
changed, and so are trees of which one lies inside the other, although
nothing else was written. -/
theorem concurrent_of_one_row_twice :
    let owner : Owner := ⟨1, 1, "d", "o"⟩
    ∃ s, Reachable s
      ∧ (s.write .readWrite owner (.updateBatch
          [("/a[@k=\"1\"]", [("x", .bool true)]), ("/a[@k='1']", [("y", .bool true)])])).2
        = .error (.concurrent "o" ["/a[@k='1']"])
      ∧ (s.write .readWrite owner (.updateTrees
          [.leafless "/b", .mk "/b/c" [("x", .bool true)] []])).2
        = .error (.concurrent "o" ["/b/c"]) := by
  intro owner
  let child := Node.leafless "/b/c"
  have hreach := Reachable.empty
    |>.step .readWrite (.createDataspace "d")
    |>.step .readWrite (.createOwner ⟨1, "d"⟩ "o")
    |>.step .readWrite (.write owner
      (.store [.leafless "/a[@k='1']", .mk "/b" [] [(child.path, child)]]))
  exact ⟨_, hreach, by decide +kernel, by decide +kernel⟩

end

end DataTree
