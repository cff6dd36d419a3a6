import DataTree.Proofs.Store.Moves
import DataTree.Proofs.Store.Reachable
import Mathlib.Logic.Relation

/-!
# Many batches at once

Clients that carry out batches at the same time may take their steps in any
order.  For each row it is as if the batches had been merged into its leaves
one after the other: those of the clients that do not report the row, each
with the leaves it found, or wrote, when its turn came.  Which order that is
may differ from row to row.

## Main definitions

* `Crowd.Orderly` — what holds between the steps of a crowd.
* `Leaves.HeldBy` — leaves that a text stands for.
* `mergedInTurn` — the leaves of a row after batches were merged in some order.
* `Crowd.Remaining` — an order of the clients that have yet to change a row.

## Main results

* `steps_alone` — a client on its own does what the write does.
* `exists_order` — the steps of a crowd come to some order.
* `rows_of_not_made` — who reports a row has not changed it.
* `batches_serial` — so no update is lost but those reported.
-/

namespace DataTree

/-! ## One client -/

theorem Stage.eq_done {stage : Stage} {answer : Outcome Summary}
    (h : stage.answer? = some answer) : stage = .done answer := by
  cases stage with
  | done found => rw [Option.some.inj h]
  | reading todo planned => cases h
  | retrying todo summary skipped => cases h

/-- Steps of a client on its own. -/
def Batch.Steps (b : Batch) : Store × Stage → Store × Stage → Prop :=
  Relation.ReflTransGen fun p q => q = b.step p.1 p.2

section Alone

variable {b : Batch} {s : Store}

theorem steps_reading (b : Batch) (s : Store) (todo : List (String × Leaves))
    (planned : List Edit) :
    b.Steps (s, .reading todo planned)
      (s, match batchEdits s b.owner.id todo with
        | .error e => .done (.error e)
        | .ok more => .reading [] (planned ++ more)) := by
  induction todo generalizing planned with
  | nil =>
      show b.Steps (s, .reading [] planned) (s, .reading [] (planned ++ []))
      rw [List.append_nil]
      exact .refl
  | cons u rest ih =>
      obtain ⟨path, leaves⟩ := u
      rw [batchEdits]
      cases hown : mergeEdits s b.owner.id path leaves with
      | error e => exact .single (by rw [Batch.step, hown]; rfl)
      | ok own =>
          have hstep : (s, Stage.reading rest (planned ++ own))
              = b.step s (.reading ((path, leaves) :: rest) planned) := by
            rw [Batch.step, hown]
          have hrest := ih (planned ++ own)
          cases hmore : batchEdits s b.owner.id rest with
          | error e =>
              rw [hmore] at hrest
              exact .head hstep hrest
          | ok more =>
              rw [hmore] at hrest
              show b.Steps _ (s, .reading [] (planned ++ (own ++ more)))
              rw [← List.append_assoc]
              exact .head hstep hrest

theorem steps_retrying {edits : List Edit} (summary : Summary) (skipped : Keyed Conflict) :
    b.Steps (s, .retrying edits summary skipped)
      ((applyEach b.owner.id edits summary skipped s).1,
        .done (Change.answer b.owner (applyEach b.owner.id edits summary skipped s).2)) := by
  induction edits generalizing summary skipped s with
  | nil => exact .single rfl
  | cons e rest ih =>
      rw [applyEach]
      split
      · rename_i happly
        exact .head (by rw [Batch.step, happly]) (ih _ _)
      · rename_i happly
        exact .head (by rw [Batch.step, happly]) (ih _ _)
      · rename_i happly
        exact .single (by rw [Batch.step, happly]; rfl)

/-- A client on its own does what the write does. -/
theorem steps_alone (b : Batch) (s : Store) :
    b.Steps (s, .reading b.updates [])
      ((s.write .readWrite b.owner (.updateBatch b.updates)).1,
        .done (s.write .readWrite b.owner (.updateBatch b.updates)).2) := by
  have hreading := steps_reading b s b.updates []
  rw [Store.write, Write.plan]
  cases hplan : batchEdits s b.owner.id b.updates with
  | error e =>
      rw [hplan] at hreading
      exact hreading
  | ok edits =>
      rw [hplan] at hreading
      refine hreading.trans ?_
      show b.Steps (s, .reading [] edits) ((applyWithFallback b.owner.id edits s).1,
        .done (Change.answer b.owner (applyWithFallback b.owner.id edits s).2))
      rw [applyWithFallback]
      split
      · rename_i hall
        exact .single (by rw [Batch.step, hall]; rfl)
      · rename_i hall
        exact .single (by rw [Batch.step, hall]; rfl)
      · rename_i hall
        exact .head (by rw [Batch.step, hall]) (steps_retrying {} [])

end Alone

/-! ## Leaves held by texts -/

/-- Whether a text stands for leaves: it reads as them, or it is their text,
though they may nest too deep to be read. -/
def Leaves.HeldBy (leaves : Leaves) (text : String) : Prop :=
  Leaves.parse text = some leaves ∨ text = Leaves.text leaves

section Held

variable {leaves old : Leaves} {text : String}

/-- What is read from a text is what it stands for. -/
theorem Leaves.HeldBy.eq_of_parse (h : leaves.HeldBy text) (hexact : leaves.Exact)
    (hparse : Leaves.parse text = some old) : old = leaves := by
  rcases h with h | rfl
  · exact Option.some.inj (hparse.symm.trans h)
  · exact Leaves.eq_of_parse_text hexact hparse

variable {b : Batch} (r : Row)

/-- What all leaves of a batch are, those for a row are. -/
theorem leavesFor_of_forall {P : Leaves → Prop} (hnil : P []) (h : ∀ u ∈ b.updates, P u.2) :
    P ((b.leavesFor? r).getD []) := by
  rw [Batch.leavesFor?]
  split
  · cases hfind : List.find? (fun u => Batch.target? u = some r.path) b.updates with
    | none => exact hnil
    | some u => exact h u (List.mem_of_find?_eq_some hfind)
  · exact hnil

theorem merge_exact (hupdates : ∀ u ∈ b.updates, u.2.Exact) (h : leaves.Exact) :
    (b.merge r leaves).Exact :=
  h.insertAll (leavesFor_of_forall r ⟨.nil, trivial⟩ hupdates)

theorem merge_shallow (hupdates : ∀ u ∈ b.updates, u.2.Shallow) (h : leaves.Shallow) :
    (b.merge r leaves).Shallow :=
  h.insertAll (leavesFor_of_forall r (by simp [Leaves.shallow_iff]) hupdates)

end Held

/-! ## Crowds -/

section

variable {ι : Type} {batches : ι → Batch} {s : Store} {c : Crowd ι} {text : Nat → String}
  {r : Row}

/-- What holds between the steps of a crowd: nothing but leaves has changed
in the store, and each client is at a stage of its own batch. -/
structure Crowd.Orderly (batches : ι → Batch) (s : Store) (c : Crowd ι) (text : Nat → String) :
    Prop where
  store : c.store = s.withTexts text
  stages : ∀ i, (c.stage i).Ok (batches i) s

theorem orderly_start (batches : ι → Batch) (hs : s.Sound) :
    (Crowd.start batches s).Orderly batches s s.texts where
  store := (withTexts_texts hs).symm
  stages := by
    refine fun i => ⟨List.suffix_refl _, ⟨by simp, .nil⟩, ?_⟩
    rintro r - ⟨e, he, -⟩
    cases he

theorem pending_start_iff {i : ι} :
    ((Crowd.start batches s).stage i).Pending (batches i) r ↔ (batches i).Names r := by
  rw [names_iff]
  refine or_iff_left ?_
  rintro ⟨e, he, -⟩
  cases he

variable [DecidableEq ι]

theorem stage_step (c : Crowd ι) (i : ι) :
    (c.step batches i).stage i = ((batches i).step c.store (c.stage i)).2 :=
  if_pos rfl

theorem stage_step_of_ne {i j : ι} (hne : j ≠ i) :
    (c.step batches i).stage j = c.stage j :=
  if_neg hne

namespace Crowd.Orderly

/-- One step of a client is a move for every row, and the others wait. -/
theorem step (h : c.Orderly batches s text) (hs : s.Sound) (hdistinct : ∀ i, (batches i).Distinct)
    (i : ι) : ∃ text', (c.step batches i).Orderly batches s text'
      ∧ ∀ r ∈ s.rows, (batches i).Move r (c.stage i) ((c.step batches i).stage i)
        (text r.id) (text' r.id) := by
  obtain ⟨text', hstore, hok, hmoves⟩ := step_moves hs (hdistinct i) (h.stages i) text
  rw [← h.store] at hstore hok hmoves
  refine ⟨text', ⟨hstore, fun j => ?_⟩, fun r hr => ?_⟩
  · by_cases hj : j = i
    · rw [hj, stage_step]
      exact hok
    · rw [stage_step_of_ne hj]
      exact h.stages j
  · rw [stage_step]
    exact hmoves r hr

theorem run (h : c.Orderly batches s text) (hs : s.Sound) (hdistinct : ∀ i, (batches i).Distinct)
    (schedule : List ι) : ∃ text', (c.run batches schedule).Orderly batches s text' := by
  induction schedule generalizing c text with
  | nil => exact ⟨text, h⟩
  | cons i rest ih =>
      obtain ⟨text', h', -⟩ := h.step hs hdistinct i
      exact ih h'

/-- What one step of a client keeps at its own stage, a run keeps. -/
theorem run_keeps (h : c.Orderly batches s text) (hs : s.Sound)
    (hdistinct : ∀ i, (batches i).Distinct) {i : ι} {P : Stage → Prop}
    (hstep : ∀ {stage : Stage} {text : Nat → String}, P stage → stage.Ok (batches i) s →
      P ((batches i).step (s.withTexts text) stage).2)
    (hP : P (c.stage i)) (schedule : List ι) : P ((c.run batches schedule).stage i) := by
  induction schedule generalizing c text with
  | nil => exact hP
  | cons j rest ih =>
      obtain ⟨text', h', -⟩ := h.step hs hdistinct j
      refine ih h' ?_
      by_cases hj : i = j
      · rw [← hj, stage_step, h.store]
        exact hstep hP (h.stages i)
      · rw [stage_step_of_ne hj]
        exact hP

variable {schedule : List ι} {i : ι} {answer : Outcome Summary}

/-- A client that has merged its leaves into a row says so in the end. -/
theorem madeAt_of_made (h : c.Orderly batches s text) (hs : s.Sound)
    (hdistinct : ∀ i, (batches i).Distinct) (hr : r ∈ s.rows) (hnames : (batches i).Names r)
    (hmade : (c.stage i).Made r)
    (hanswer : ((c.run batches schedule).stage i).answer? = some answer) :
    madeAt r.path answer = true := by
  have hlast := h.run_keeps hs hdistinct (P := fun stage => stage.Made r)
    (fun hmade hok => hmade.step hs hr hnames hok) hmade schedule
  rw [Stage.eq_done hanswer] at hlast
  exact hlast

/-- A client that has given a row up does not say that it made the update. -/
theorem madeAt_of_givenUp (h : c.Orderly batches s text) (hs : s.Sound)
    (hdistinct : ∀ i, (batches i).Distinct) (hgiven : (c.stage i).GivenUp r)
    (hanswer : ((c.run batches schedule).stage i).answer? = some answer) :
    madeAt r.path answer = false := by
  have hlast := h.run_keeps hs hdistinct (P := fun stage => stage.GivenUp r)
    (fun hgiven hok => hgiven.step hok) hgiven schedule
  rw [Stage.eq_done hanswer] at hlast
  exact hlast

end Crowd.Orderly

/-! ## Orders -/

/-- The leaves of a row after batches were merged into them in turn. -/
def mergedInTurn (batches : ι → Batch) (r : Row) (order : List ι) (leaves : Leaves) : Leaves :=
  order.foldl (fun leaves i => (batches i).merge r leaves) leaves

/-- Whether an order lists the clients that may still change a row and in the
end say that they did. -/
structure Crowd.Remaining (c : Crowd ι) (batches : ι → Batch) (answers : ι → Outcome Summary)
    (r : Row) (order : List ι) : Prop where
  nodup : order.Nodup
  mem : ∀ i, i ∈ order ↔ (c.stage i).Pending (batches i) r ∧ madeAt r.path (answers i) = true

namespace Crowd.Remaining

variable {answers : ι → Outcome Summary} {order : List ι} {i : ι}

/-- A step by which its client merges nothing into the row. -/
theorem of_step (h : (c.step batches i).Remaining batches answers r order)
    (hsame : (((c.step batches i).stage i).Pending (batches i) r ∧ madeAt r.path (answers i) = true)
      ↔ (c.stage i).Pending (batches i) r ∧ madeAt r.path (answers i) = true) :
    c.Remaining batches answers r order where
  nodup := h.nodup
  mem := by
    intro j
    rw [h.mem]
    by_cases hj : j = i
    · rw [hj]
      exact hsame
    · rw [stage_step_of_ne hj]

/-- A step by which its client merges its leaves into the row. -/
theorem cons_of_step (h : (c.step batches i).Remaining batches answers r order)
    (hbefore : (c.stage i).Pending (batches i) r)
    (hafter : ¬((c.step batches i).stage i).Pending (batches i) r)
    (hmade : madeAt r.path (answers i) = true) : c.Remaining batches answers r (i :: order) where
  nodup := List.nodup_cons.mpr ⟨fun hi => hafter ((h.mem i).mp hi).1, h.nodup⟩
  mem := by
    intro j
    by_cases hj : j = i
    · rw [hj]
      exact iff_of_true List.mem_cons_self ⟨hbefore, hmade⟩
    · rw [List.mem_cons, or_iff_right hj, h.mem, stage_step_of_ne hj]

end Crowd.Remaining

/-- The rest of a run comes to some order for a row. -/
theorem exists_order (hs : s.Sound) (hdistinct : ∀ i, (batches i).Distinct)
    (hexact : ∀ i, ∀ u ∈ (batches i).updates, u.2.Exact) (hr : r ∈ s.rows)
    {answers : ι → Outcome Summary} {schedule : List ι} {text' : Nat → String}
    (h : c.Orderly batches s text) (hlast : (c.run batches schedule).store = s.withTexts text')
    (hdone : ∀ i, ((c.run batches schedule).stage i).answer? = some (answers i))
    {leaves : Leaves} (hleaves : leaves.Exact) (hheld : leaves.HeldBy (text r.id)) :
    ∃ order, c.Remaining batches answers r order
      ∧ (mergedInTurn batches r order leaves).HeldBy (text' r.id) := by
  -- a client that merges its leaves by the first step comes before the rest
  induction schedule generalizing c text leaves with
  | nil =>
      refine ⟨[], ⟨.nil, fun i => ?_⟩, ?_⟩
      · have hstage : c.stage i = .done (answers i) := Stage.eq_done (hdone i)
        rw [hstage]
        simp [Stage.Pending]
      · rwa [← text_eq_of_withTexts hr (h.store.symm.trans hlast)]
  | cons i rest ih =>
      obtain ⟨text₁, h₁, hmoves⟩ := h.step hs hdistinct i
      have hmove := hmoves r hr
      generalize htext : text₁ r.id = after at hmove
      cases hmove with
      | idle hsame =>
          obtain ⟨order, horder, hheld'⟩ := ih h₁ hlast hdone hleaves (htext ▸ hheld)
          exact ⟨order, horder.of_step (and_congr_left' hsame), hheld'⟩
      | passed old hbefore hafter hparse hsame =>
          obtain rfl := hheld.eq_of_parse hleaves hparse
          obtain ⟨order, horder, hheld'⟩ := ih h₁ hlast hdone hleaves (htext ▸ hheld)
          by_cases hmade : madeAt r.path (answers i) = true
          · refine ⟨i :: order, horder.cons_of_step hbefore hafter hmade, ?_⟩
            rw [mergedInTurn, List.foldl_cons, Leaves.eq_of_same hleaves hsame]
            exact hheld'
          · exact ⟨order, horder.of_step (iff_of_false (hmade ·.2) (hmade ·.2)), hheld'⟩
      | merged old hbefore hafter hparse hmade =>
          obtain rfl := hheld.eq_of_parse hleaves hparse
          obtain ⟨order, horder, hheld'⟩ :=
            ih h₁ hlast hdone (merge_exact r (hexact i) hleaves) (.inr htext)
          have hnames := hbefore.names hs hr (h.stages i)
          have hmade := h₁.madeAt_of_made hs hdistinct hr hnames hmade (hdone i)
          exact ⟨i :: order, horder.cons_of_step hbefore hafter hmade, hheld'⟩
      | givenUp hafter hgiven =>
          obtain ⟨order, horder, hheld'⟩ := ih h₁ hlast hdone hleaves (htext ▸ hheld)
          have hnotmade := h₁.madeAt_of_givenUp hs hdistinct hgiven (hdone i)
          exact ⟨order, horder.of_step (by simp [hnotmade]), hheld'⟩

/-! ## Rows that are left alone -/

/-- A client that in the end does not say that it changed a row has not
changed it by any of its steps. -/
theorem rows_of_not_made (hs : s.Sound) (hdistinct : ∀ i, (batches i).Distinct) (hr : r ∈ s.rows)
    {answer : Outcome Summary} {before rest : List ι} {i : ι} (h : c.Orderly batches s text)
    (hanswer : ((c.run batches (before ++ i :: rest)).stage i).answer? = some answer)
    (hnot : ¬((batches i).Names r ∧ madeAt r.path answer = true)) (q : Row) (hq : q.id = r.id) :
    q ∈ (c.run batches (before ++ [i])).store.rows ↔ q ∈ (c.run batches before).store.rows := by
  obtain ⟨text₀, h₀⟩ := h.run hs hdistinct before
  obtain ⟨text₁, h₁, hmoves⟩ := h₀.step hs hdistinct i
  have hlast : c.run batches (before ++ i :: rest)
      = ((c.run batches before).step batches i).run batches rest := by
    rw [Crowd.run, List.foldl_append, List.foldl_cons]
    rfl
  have hnext : c.run batches (before ++ [i]) = (c.run batches before).step batches i := by
    rw [Crowd.run, List.foldl_append]
    rfl
  have hsame : text₁ r.id = text₀ r.id := by
    have hmove := hmoves r hr
    generalize text₁ r.id = after at hmove
    cases hmove with
    | idle _ => rfl
    | passed _ _ _ _ _ => rfl
    | merged old hbefore hafter hparse hmade =>
        have hnames := hbefore.names hs hr (h₀.stages i)
        rw [hlast] at hanswer
        exact absurd ⟨hnames, h₁.madeAt_of_made hs hdistinct hr hnames hmade hanswer⟩ hnot
    | givenUp _ _ => rfl
  have hrow : ∀ x ∈ s.rows, q.id = x.id → text₁ x.id = text₀ x.id := by
    intro x hx hid
    rw [← hid, hq, hsame]
  rw [hnext, h₁.store, h₀.store, mem_withTexts, mem_withTexts]
  constructor
  · rintro ⟨x, hx, rfl⟩
    exact ⟨x, hx, by rw [hrow x hx rfl]⟩
  · rintro ⟨x, hx, rfl⟩
    exact ⟨x, hx, by rw [hrow x hx rfl]⟩

/-! ## Answers -/

/-- Whether leaves can be read from a text and have no doubles. -/
def Legible (text : String) : Prop :=
  ∃ leaves : Leaves, Leaves.parse text = some leaves ∧ leaves.Exact ∧ leaves.Shallow

/-- Batches of readable leaves keep rows readable. -/
theorem Batch.Move.legible {b : Batch} (hexact : ∀ u ∈ b.updates, u.2.Exact)
    (hshallow : ∀ u ∈ b.updates, u.2.Shallow) {stage stage' : Stage} {old new : String}
    (h : b.Move r stage stage' old new) (hold : Legible old) : Legible new := by
  cases h with
  | idle _ => exact hold
  | passed _ _ _ _ _ => exact hold
  | merged leaves _ _ hparse _ =>
      obtain ⟨leaves', hparse', hexact', hshallow'⟩ := hold
      obtain rfl := Option.some.inj (hparse.symm.trans hparse')
      have hexact := merge_exact r hexact hexact'
      have hshallow := merge_shallow r hshallow hshallow'
      exact ⟨_, Leaves.parse_text_of_shallow hexact hshallow, hexact, hshallow⟩
  | givenUp _ _ => exact hold

/-- While all rows are readable no client is refused for one that is not. -/
theorem step_ne_unreadable {b : Batch} {stage : Stage} (hok : stage.Ok b s)
    (hlegible : ∀ r ∈ s.rows, Legible (text r.id))
    (h : stage ≠ .done (.error .unreadableLeaves)) :
    (b.step (s.withTexts text) stage).2 ≠ .done (.error .unreadableLeaves) := by
  cases stage with
  | reading todo planned =>
      cases todo with
      | nil =>
          rw [Batch.step, hok.2.1.inOrder_eq]
          rcases applyAll_updates hok.2.1.updates hok.2.1.distinct text with
            ⟨-, path, -, -, -, -, hall⟩ | ⟨text', summary, hall, -⟩ <;> rw [hall] <;> rintro ⟨⟩
      | cons u todo =>
          obtain ⟨path, leaves⟩ := u
          rw [Batch.step, mergeEdits_withTexts]
          cases hrow : (Path.normalize path).toOption.bind (s.rowAt? b.owner.id) with
          | none => rintro ⟨⟩
          | some q =>
              obtain ⟨target, -, hfound⟩ := Option.bind_eq_some_iff.mp hrow
              obtain ⟨old, hparse, -⟩ := hlegible q (rowAt?_eq_some hfound).1
              simp only
              rw [hparse]
              rintro ⟨⟩
  | retrying todo summary skipped =>
      cases todo with
      | nil =>
          rw [Batch.step, answer_of_stale hok.2.1]
          split <;> rintro ⟨⟩
      | cons e todo =>
          obtain ⟨q, hq, -, expected, old, -, rfl⟩ := hok.1.plans e List.mem_cons_self
          rw [Batch.step, apply_update hq]
          split
          · rintro ⟨⟩
          · rintro ⟨⟩
          · rename_i happly
            split at happly <;> cases happly
  | done answer => exact h

theorem run_legible (hs : s.Sound) (hdistinct : ∀ i, (batches i).Distinct)
    (hexact : ∀ i, ∀ u ∈ (batches i).updates, u.2.Exact)
    (hshallow : ∀ i, ∀ u ∈ (batches i).updates, u.2.Shallow) (h : c.Orderly batches s text)
    (hlegible : ∀ r ∈ s.rows, Legible (text r.id))
    (hstages : ∀ i, c.stage i ≠ .done (.error .unreadableLeaves)) (schedule : List ι) :
    ∃ text', (c.run batches schedule).Orderly batches s text'
      ∧ (∀ r ∈ s.rows, Legible (text' r.id))
      ∧ ∀ i, (c.run batches schedule).stage i ≠ .done (.error .unreadableLeaves) := by
  induction schedule generalizing c text with
  | nil => exact ⟨text, h, hlegible, hstages⟩
  | cons i rest ih =>
      obtain ⟨text₁, h₁, hmoves⟩ := h.step hs hdistinct i
      refine ih h₁ (fun r hr => (hmoves r hr).legible (hexact i) (hshallow i) (hlegible r hr))
        fun j => ?_
      by_cases hj : j = i
      · rw [hj, stage_step, h.store]
        exact step_ne_unreadable (h.stages i) hlegible (hstages i)
      · rw [stage_step_of_ne hj]
        exact hstages j

/-! ## No update is lost -/

/-- Clients carry out batches, each of which names different paths and has no
doubles, in steps that may come in any order, until all are done.  Nothing but
leaves changes.  The leaves of each row in the end are those before with the
batches merged into them, in some order, of exactly those clients that name
the row and say that they made their update; no step of another client has
changed the row.  If no leaves nest too deep to be read, a client that does
not say so has reported the row as changed. -/
theorem batches_serial (hs : s.Sound) (hdistinct : ∀ i, (batches i).Distinct)
    (hexact : ∀ i, ∀ u ∈ (batches i).updates, u.2.Exact) {schedule : List ι}
    {answers : ι → Outcome Summary} (hdone : ∀ i,
      (((Crowd.start batches s).run batches schedule).stage i).answer? = some (answers i)) :
    ∃ text, ((Crowd.start batches s).run batches schedule).store = s.withTexts text
      ∧ (∀ r ∈ s.rows, ∀ leaves, Leaves.parse r.attributes = some leaves → leaves.Exact →
        ∃ order : List ι, order.Nodup
          ∧ (∀ i, i ∈ order ↔ (batches i).Names r ∧ madeAt r.path (answers i) = true)
          ∧ (mergedInTurn batches r order leaves).HeldBy (text r.id))
      ∧ (∀ before i rest, schedule = before ++ i :: rest → ∀ r ∈ s.rows,
        ¬((batches i).Names r ∧ madeAt r.path (answers i) = true) → ∀ q : Row, q.id = r.id →
          (q ∈ ((Crowd.start batches s).run batches (before ++ [i])).store.rows
            ↔ q ∈ ((Crowd.start batches s).run batches before).store.rows))
      ∧ ((∀ r ∈ s.rows, Legible r.attributes) → (∀ i, ∀ u ∈ (batches i).updates, u.2.Shallow) →
        (∀ r ∈ s.rows, Legible (text r.id))
          ∧ ∀ i e, answers i = .error e → e.isConcurrent = true) := by
  have hstart := orderly_start batches hs
  obtain ⟨text, hlast⟩ := hstart.run hs hdistinct schedule
  refine ⟨text, hlast.store, fun r hr leaves hparse hleaves => ?_, ?_, fun hlegible hshallow => ?_⟩
  · have hheld : leaves.HeldBy (s.texts r.id) := .inl (by rw [texts_of_mem hs hr]; exact hparse)
    obtain ⟨order, horder, hmerged⟩ :=
      exists_order hs hdistinct hexact hr hstart hlast.store hdone hleaves hheld
    refine ⟨order, horder.nodup, fun i => ?_, hmerged⟩
    rw [horder.mem, pending_start_iff]
  · rintro before i rest rfl r hr hnot q hq
    exact rows_of_not_made hs hdistinct hr hstart (hdone i) hnot q hq
  · obtain ⟨text', hlast', hlegible', hstages⟩ := run_legible hs hdistinct hexact hshallow hstart
      (fun r hr => by rw [texts_of_mem hs hr]; exact hlegible r hr) (fun i => nofun) schedule
    refine ⟨fun r hr => ?_, fun i e he => ?_⟩
    · rw [text_eq_of_withTexts hr (hlast.store.symm.trans hlast'.store)]
      exact hlegible' r hr
    · have hstage := Stage.eq_done (hdone i)
      have hok := hlast.stages i
      rw [hstage] at hok
      refine (hok e he).resolve_right fun hunreadable => hstages i ?_
      rw [hstage, he, hunreadable]

/-- Two clients at two rows: the second changes one of them between the
reads of the first and its writes, which then merges into the other row only
and reports the first. -/
theorem batches_serial_of_conflict :
    let owner : Owner := ⟨1, 1, "d", "o"⟩
    let first : Batch := ⟨owner, [("/a", [("p", .bool true)]), ("/b", [("p", .bool true)])]⟩
    let second : Batch := ⟨owner, [("/a", [("q", .bool true)])]⟩
    let batches := fun i : Bool => if i then second else first
    let answers : Bool → Outcome Summary := fun i =>
      if i then .ok { updated := 1 } else .error (.concurrent "o" ["/a"])
    let schedule := [false, true, false, true, false, false, false, false]
    ∃ s, s.Sound ∧ s.rows.map (fun r => (r.path, r.attributes)) = [("/a", "{}"), ("/b", "{}")]
      ∧ (∀ i, (((Crowd.start batches s).run batches schedule).stage i).answer? = some (answers i))
      ∧ ∃ text, ((Crowd.start batches s).run batches schedule).store = s.withTexts text
        ∧ ∀ r ∈ s.rows, ∀ leaves, Leaves.parse r.attributes = some leaves → leaves.Exact →
          ∃ order : List Bool, order.Nodup
            ∧ (∀ i, i ∈ order ↔ (batches i).Names r ∧ madeAt r.path (answers i) = true)
            ∧ (mergedInTurn batches r order leaves).HeldBy (text r.id) := by
  intro owner first second batches answers schedule
  let s₁ := (Request.createDataspace "d").run .readWrite Store.empty
  let s₂ := (Request.createOwner ⟨1, "d"⟩ "o").run .readWrite s₁
  let s := (Request.write owner (.store [.leafless "/a", .leafless "/b"])).run .readWrite s₂
  have hs : s.Sound := sound_of_reachable
    (Reachable.empty |>.step .readWrite _ |>.step .readWrite _ |>.step .readWrite _)
  have hdistinct : ∀ i, (batches i).Distinct := by
    intro i
    cases i <;> decide +kernel
  have hexact : ∀ i, ∀ u ∈ (batches i).updates, u.2.Exact := by
    have hone : ∀ name, Leaves.Exact [(name, .bool true)] :=
      fun name => ⟨List.pairwise_singleton _ _, trivial, trivial⟩
    intro i u hu
    cases i with
    | false =>
        rcases List.mem_cons.mp hu with rfl | hu
        · exact hone "p"
        · rw [List.mem_singleton.mp hu]
          exact hone "p"
    | true =>
        rw [List.mem_singleton.mp hu]
        exact hone "q"
  have hdone : ∀ i, (((Crowd.start batches s).run batches schedule).stage i).answer?
      = some (answers i) := by
    intro i
    cases i <;> decide +kernel
  obtain ⟨text, hstore, horders, -⟩ := batches_serial hs hdistinct hexact hdone
  exact ⟨s, hs, by decide +kernel, hdone, text, hstore, horders⟩

end

end DataTree
