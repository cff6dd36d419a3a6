import DataTree.Proofs.Json.Values
import DataTree.Proofs.Store.Concurrency
import DataTree.Proofs.Store.Texts
import DataTree.Store.Batch

/-!
# What one step of a batch does to a row

Whatever else a batch is about, each step of it does one of four things to a
row: it leaves the row as it is, finds that the row has the new leaves
already, merges them into the leaves as they are, or gives the row up.  Once
the leaves are merged or the row is given up, the client keeps to it and says
so in the end.

## Main definitions

* `Stage.Ok` — what holds between the steps of a client.
* `Stage.Pending` — whether a client may still change a row.
* `Batch.Move` — what a step is for one row.

## Main results

* `step_moves` — every step is a move for every row.
* `Made.step`, `GivenUp.step` — what became of a row stays.
-/

namespace DataTree

/-! ## Stages -/

namespace Batch

/-- Whether a batch has leaves for a row. -/
def Names (b : Batch) (r : Row) : Prop := (b.leavesFor? r).isSome = true

/-- Whether an edit merges a batch into a row as it was read. -/
def Plans (b : Batch) (r : Row) (e : Edit) : Prop :=
  ∃ expected old, Leaves.parse expected = some old
    ∧ e = .update r.id r.path expected (Leaves.text (b.merge r old))

/-- Whether edits merge a batch into different rows. -/
structure PlansAll (b : Batch) (s : Store) (edits : List Edit) : Prop where
  plans : ∀ e ∈ edits, ∃ r ∈ s.rows, b.Names r ∧ b.Plans r e
  distinct : edits.Pairwise fun e f => e.place? ≠ f.place?

end Batch

/-- Whether some edit is about a row. -/
def Touches (edits : List Edit) (r : Row) : Prop := ∃ e ∈ edits, e.place? = some r.id

/-- Whether some update names a row. -/
def IsNamed (updates : List (String × Leaves)) (r : Row) : Prop :=
  ∃ u ∈ updates, Batch.target? u = some r.path

namespace Stage

/-- What holds between the steps of a client: updates still to be read for
are about rows without an edit, and rows still to be written are not among
those skipped. -/
def Ok (b : Batch) (s : Store) : Stage → Prop
  | .reading todo planned => todo <:+ b.updates ∧ b.PlansAll s planned
      ∧ ∀ r ∈ s.rows, Touches planned r → ¬IsNamed todo r
  | .retrying todo _ skipped => b.PlansAll s todo ∧ (∀ c ∈ skipped, c.2 = .stale)
      ∧ ∀ r ∈ s.rows, Touches todo r → Keyed.find? r.path skipped = none
  | .done answer => ∀ e, answer = .error e → e.isConcurrent = true ∨ e = .unreadableLeaves

/-- Whether a client may still change a row. -/
def Pending (b : Batch) (r : Row) : Stage → Prop
  | .reading todo planned => (r.owner = b.owner.id ∧ IsNamed todo r) ∨ Touches planned r
  | .retrying todo _ _ => Touches todo r
  | .done _ => False

/-- Whether a client has merged its leaves into a row. -/
def Made (r : Row) : Stage → Prop
  | .reading .. => False
  | .retrying todo _ skipped => ¬Touches todo r ∧ Keyed.find? r.path skipped = none
  | .done answer => madeAt r.path answer = true

/-- Whether a client has given a row up. -/
def GivenUp (r : Row) : Stage → Prop
  | .reading .. => False
  | .retrying _ _ skipped => Keyed.find? r.path skipped ≠ none
  | .done answer => madeAt r.path answer = false

end Stage

/-- What a step from one stage to the next is for a row with some text. -/
inductive Batch.Move (b : Batch) (r : Row) (before after : Stage) (text : String) : String → Prop
  | idle : (after.Pending b r ↔ before.Pending b r) → Move b r before after text text
  /-- The row has the leaves already. -/
  | passed (old : Leaves) : before.Pending b r → ¬after.Pending b r →
      Leaves.parse text = some old → Leaves.same (b.merge r old) old = true →
      Move b r before after text text
  | merged (old : Leaves) : before.Pending b r → ¬after.Pending b r →
      Leaves.parse text = some old → after.Made r →
      Move b r before after text (Leaves.text (b.merge r old))
  /-- The row has changed, or the batch is refused as a whole. -/
  | givenUp : ¬after.Pending b r → after.GivenUp r → Move b r before after text text

section

variable {b : Batch} {s : Store} {r : Row} {edits : List Edit}

/-! ## Names -/

theorem owner_of_names (h : b.Names r) : r.owner = b.owner.id := by
  rw [Batch.Names, Batch.leavesFor?] at h
  split at h
  · assumption
  · cases h

theorem names_iff : b.Names r ↔ r.owner = b.owner.id ∧ IsNamed b.updates r := by
  rw [Batch.Names, Batch.leavesFor?]
  split
  · rename_i howner
    simp [howner, IsNamed, List.find?_isSome]
  · rename_i howner
    simp [howner]

/-- Different rows that a batch names have different paths. -/
theorem path_ne_of_names (hs : s.Sound) {q : Row} (hq : q ∈ s.rows) (hr : r ∈ s.rows)
    (hqb : b.Names q) (hrb : b.Names r) (hne : q.id ≠ r.id) : q.path ≠ r.path := by
  intro hpath
  exact hne (congrArg Row.id (hs.eq_of_path hq hr
    ((owner_of_names hqb).trans (owner_of_names hrb).symm) hpath))

/-- Of different paths each is named once. -/
theorem not_isNamed_of_distinct (hdistinct : b.Distinct) {u : String × Leaves}
    {todo : List (String × Leaves)} (hsuffix : u :: todo <:+ b.updates)
    (hu : Batch.target? u = some r.path) : ¬IsNamed todo r := by
  rintro ⟨v, hv, htarget⟩
  have hnodup : ((u :: todo).filterMap Batch.target?).Nodup :=
    hdistinct.sublist (hsuffix.sublist.filterMap _)
  rw [List.filterMap_cons_some hu, List.nodup_cons] at hnodup
  exact hnodup.1 (List.mem_filterMap.mpr ⟨v, hv, htarget⟩)

/-- The leaves of an update that names a row are the ones the batch has for
the row. -/
theorem merge_of_target (hdistinct : b.Distinct) {u : String × Leaves} (hu : u ∈ b.updates)
    (howner : r.owner = b.owner.id) (htarget : Batch.target? u = some r.path) (old : Leaves) :
    b.merge r old = Keyed.insertAll old u.2 := by
  have hfound : List.find? (fun v => Batch.target? v = some r.path) b.updates = some u := by
    have hnodup : b.updates.Pairwise fun v w => ∀ p, Batch.target? v = some p →
        Batch.target? w ≠ some p := by
      have hpairs := List.pairwise_filterMap.mp hdistinct
      exact hpairs.imp fun hne p hv hw => hne p hv p hw rfl
    cases hfind : List.find? (fun v => Batch.target? v = some r.path) b.updates with
    | none => exact absurd htarget (by simpa using List.find?_eq_none.mp hfind u hu)
    | some v =>
        have hv : Batch.target? v = some r.path := by simpa using List.find?_some hfind
        by_contra hne
        have hsymm : Std.Symm fun v w : String × Leaves => ∀ p, Batch.target? v = some p →
            Batch.target? w ≠ some p := ⟨fun _ _ h p hw hv => h p hv hw⟩
        refine hnodup.forall (List.mem_of_find?_eq_some hfind) hu ?_ r.path hv htarget
        rintro rfl
        exact hne rfl
  rw [Batch.merge, Batch.leavesFor?, if_pos howner, hfound]
  rfl

/-! ## Edits -/

theorem isNamed_cons {u : String × Leaves} {todo : List (String × Leaves)} :
    IsNamed (u :: todo) r ↔ Batch.target? u = some r.path ∨ IsNamed todo r := by
  simp [IsNamed]

theorem touches_cons {e : Edit} :
    Touches (e :: edits) r ↔ e.place? = some r.id ∨ Touches edits r := by
  simp [Touches]

theorem touches_concat {e : Edit} :
    Touches (edits ++ [e]) r ↔ Touches edits r ∨ e.place? = some r.id := by
  simp [Touches, or_and_right, exists_or]

namespace Batch.PlansAll

theorem updates (h : b.PlansAll s edits) : ∀ e ∈ edits, ∃ r ∈ s.rows, ∃ expected attributes,
    e = .update r.id r.path expected attributes := by
  intro e he
  obtain ⟨r, hr, -, expected, old, -, rfl⟩ := h.plans e he
  exact ⟨r, hr, expected, _, rfl⟩

theorem tail {e : Edit} (h : b.PlansAll s (e :: edits)) : b.PlansAll s edits where
  plans := fun f hf => h.plans f (List.mem_cons_of_mem e hf)
  distinct := (List.pairwise_cons.mp h.distinct).2

/-- The first edit is the only one about its row. -/
theorem not_touches_tail {e : Edit} (h : b.PlansAll s (e :: edits)) (he : e.place? = some r.id) :
    ¬Touches edits r := by
  rintro ⟨f, hf, hplace⟩
  exact (List.pairwise_cons.mp h.distinct).1 f hf (he.trans hplace.symm)

/-- The edit about a row is planned for it. -/
theorem of_touches (h : b.PlansAll s edits) (hs : s.Sound) (hr : r ∈ s.rows)
    (htouches : Touches edits r) : b.Names r ∧ ∃ e ∈ edits, b.Plans r e := by
  obtain ⟨e, he, hplace⟩ := htouches
  obtain ⟨q, hq, hnames, hplans⟩ := h.plans e he
  have hid : q.id = r.id := by
    obtain ⟨expected, old, -, rfl⟩ := hplans
    exact Option.some.inj hplace
  rw [← hs.eq_of_id hq hr hid]
  exact ⟨hnames, e, he, hplans⟩

theorem inOrder_eq (h : b.PlansAll s edits) : inOrder edits = edits :=
  inOrder_of_updates h.updates

end Batch.PlansAll

/-- A client changes only rows that its batch names. -/
theorem Stage.Pending.names (hs : s.Sound) (hr : r ∈ s.rows) {stage : Stage}
    (h : stage.Pending b r) (hok : stage.Ok b s) : b.Names r := by
  cases stage with
  | reading todo planned =>
      rcases h with ⟨howner, u, hu, htarget⟩ | htouches
      · exact names_iff.mpr ⟨howner, u, hok.1.subset hu, htarget⟩
      · exact (hok.2.1.of_touches hs hr htouches).1
  | retrying todo summary skipped => exact (hok.1.of_touches hs hr h).1
  | done answer => exact h.elim

/-! ## Steps -/

/-- What a step from a stage comes to, for every row. -/
def Batch.Moves (b : Batch) (s : Store) (text : Nat → String) (before : Stage)
    (next : Store × Stage) : Prop :=
  ∃ text', next.1 = s.withTexts text' ∧ next.2.Ok b s
    ∧ ∀ r ∈ s.rows, b.Move r before next.2 (text r.id) (text' r.id)

variable {text : Nat → String}

/-- Updates that are read for and need no edit. -/
theorem Stage.Ok.tail {u : String × Leaves} {todo : List (String × Leaves)} {planned : List Edit}
    (hok : (Stage.reading (u :: todo) planned).Ok b s) : (Stage.reading todo planned).Ok b s :=
  ⟨(List.suffix_cons _ _).trans hok.1, hok.2.1,
    fun r hr htouches hnamed => hok.2.2 r hr htouches (isNamed_cons.mpr (.inr hnamed))⟩

/-- An update that is read for and planned. -/
theorem Stage.Ok.planned (hs : s.Sound) (hdistinct : b.Distinct) {u : String × Leaves}
    {todo : List (String × Leaves)} {planned : List Edit} {e : Edit} {q : Row}
    (hok : (Stage.reading (u :: todo) planned).Ok b s) (hq : q ∈ s.rows)
    (howner : q.owner = b.owner.id) (htarget : Batch.target? u = some q.path)
    (hplans : b.Plans q e) : (Stage.reading todo (planned ++ [e])).Ok b s := by
  have hplace : e.place? = some q.id := by
    obtain ⟨expected, old, -, rfl⟩ := hplans
    rfl
  have hnames : b.Names q :=
    names_iff.mpr ⟨howner, u, hok.1.subset List.mem_cons_self, htarget⟩
  have huntouched : ¬Touches planned q := fun htouches =>
    hok.2.2 q hq htouches (isNamed_cons.mpr (.inl htarget))
  refine ⟨hok.tail.1, ⟨fun f hf => ?_, ?_⟩, fun r hr htouches => ?_⟩
  · rcases List.mem_append.mp hf with hf | hf
    · exact hok.2.1.plans f hf
    · rw [List.mem_singleton.mp hf]
      exact ⟨q, hq, hnames, hplans⟩
  · refine List.pairwise_append.mpr
      ⟨hok.2.1.distinct, List.pairwise_singleton _ _, fun f hf f' hf' => ?_⟩
    rw [List.mem_singleton.mp hf', hplace]
    exact fun hsame => huntouched ⟨f, hf, hsame⟩
  · rcases touches_concat.mp htouches with htouches | hsame
    · exact hok.tail.2.2 r hr htouches
    · rw [← hs.eq_of_id hq hr (Option.some.inj (hplace.symm.trans hsame))]
      exact not_isNamed_of_distinct hdistinct hok.1 htarget

theorem step_reading (hs : s.Sound) (hdistinct : b.Distinct) {u : String × Leaves}
    {todo : List (String × Leaves)} {planned : List Edit}
    (hok : (Stage.reading (u :: todo) planned).Ok b s) :
    b.Moves s text (.reading (u :: todo) planned)
      (b.step (s.withTexts text) (.reading (u :: todo) planned)) := by
  obtain ⟨path, leaves⟩ := u
  rw [Batch.step, mergeEdits_withTexts]
  cases hrow : (Path.normalize path).toOption.bind (s.rowAt? b.owner.id) with
  | none =>
      -- the update names no row
      simp only [List.append_nil]
      refine ⟨text, rfl, hok.tail, fun r hr => .idle ?_⟩
      have hother : ¬(r.owner = b.owner.id ∧ Batch.target? (path, leaves) = some r.path) := by
        rintro ⟨howner, htarget⟩
        have hfound : (Path.normalize path).toOption.bind (s.rowAt? b.owner.id) = some r :=
          Option.bind_eq_some_iff.mpr ⟨r.path, htarget,
            (rowAt?_eq_some_iff hs).mpr ⟨hr, howner, rfl⟩⟩
        cases hrow.symm.trans hfound
      simp only [Stage.Pending, isNamed_cons]
      tauto
  | some q =>
      obtain ⟨target, htarget, hfound⟩ := Option.bind_eq_some_iff.mp hrow
      obtain ⟨hq, howner, rfl⟩ := (rowAt?_eq_some_iff hs).mp hfound
      have htarget : Batch.target? (path, leaves) = some q.path := htarget
      have hmerge := merge_of_target hdistinct (hok.1.subset List.mem_cons_self) howner htarget
      have hothers : ∀ r ∈ s.rows, r.id ≠ q.id →
          ¬(r.owner = b.owner.id ∧ Batch.target? (path, leaves) = some r.path) := by
        rintro r hr hne ⟨hrowner, hrtarget⟩
        have hpath : q.path = r.path := Option.some.inj (htarget.symm.trans hrtarget)
        exact hne (congrArg Row.id (hs.eq_of_path hr hq (hrowner.trans howner.symm) hpath.symm))
      simp only
      cases hparse : Leaves.parse (text q.id) with
      | none =>
          exact ⟨text, rfl, fun e he => .inr (Except.error.inj he).symm,
            fun r _ => .givenUp not_false rfl⟩
      | some old =>
          by_cases hsame : Leaves.same (Keyed.insertAll old leaves) old = true
          · -- the row has the leaves already
            simp only [if_pos hsame, List.append_nil]
            refine ⟨text, rfl, hok.tail, fun r hr => ?_⟩
            by_cases hid : r.id = q.id
            · rw [hs.eq_of_id hr hq hid]
              have hnamed : IsNamed ((path, leaves) :: todo) q := isNamed_cons.mpr (.inl htarget)
              refine .passed old (.inl ⟨howner, hnamed⟩) ?_ hparse (by rw [hmerge]; exact hsame)
              rintro (⟨-, hnamed⟩ | htouches)
              · exact not_isNamed_of_distinct hdistinct hok.1 htarget hnamed
              · exact hok.2.2 q hq htouches hnamed
            · refine .idle ?_
              have hother := hothers r hr hid
              simp only [Stage.Pending, isNamed_cons]
              tauto
          · simp only [if_neg hsame]
            refine ⟨text, rfl, hok.planned hs hdistinct hq howner htarget
              ⟨text q.id, old, hparse, by rw [hmerge]⟩, fun r hr => .idle ?_⟩
            simp only [Stage.Pending, isNamed_cons, touches_concat]
            by_cases hid : r.id = q.id
            · rw [hs.eq_of_id hr hq hid]
              exact iff_of_true (.inr (.inr rfl)) (.inl ⟨howner, .inl htarget⟩)
            · have hother := hothers r hr hid
              have hplace : some q.id ≠ some r.id := fun hplace => hid (Option.some.inj hplace).symm
              simp only [Edit.place?]
              tauto

theorem step_writing (hs : s.Sound) {planned : List Edit}
    (hok : (Stage.reading [] planned).Ok b s) :
    b.Moves s text (.reading [] planned) (b.step (s.withTexts text) (.reading [] planned)) := by
  obtain ⟨-, hplanned, -⟩ := hok
  rw [Batch.step, hplanned.inOrder_eq]
  rcases applyAll_updates hplanned.updates hplanned.distinct text with
    ⟨-, path, -, -, -, -, hall⟩ | ⟨text', summary, hall, hsame, hset⟩
  · rw [hall]
    refine ⟨text, rfl, ⟨hplanned, by simp, fun _ _ _ => rfl⟩, fun r _ => .idle ?_⟩
    simp [Stage.Pending, IsNamed]
  · rw [hall]
    refine ⟨text', rfl, fun e he => (nomatch he), fun r hr => ?_⟩
    by_cases htouches : Touches planned r
    · obtain ⟨-, e, he, expected, old, hparse, rfl⟩ := hplanned.of_touches hs hr htouches
      obtain ⟨hbefore, hafter⟩ := hset _ _ _ _ he
      rw [hafter]
      exact .merged old (.inr htouches) not_false (hbefore ▸ hparse) rfl
    · rw [hsame r.id fun e he hplace => htouches ⟨e, he, hplace⟩]
      refine .idle (iff_of_false not_false ?_)
      rintro (⟨-, u, hu, -⟩ | h)
      · cases hu
      · exact htouches h

theorem step_retrying (hs : s.Sound) {e : Edit} {todo : List Edit} {summary : Summary}
    {skipped : Keyed Conflict} (hok : (Stage.retrying (e :: todo) summary skipped).Ok b s) :
    b.Moves s text (.retrying (e :: todo) summary skipped)
      (b.step (s.withTexts text) (.retrying (e :: todo) summary skipped)) := by
  obtain ⟨hplanned, hstale, hfresh⟩ := hok
  obtain ⟨q, hq, hnames, expected, old, hparse, rfl⟩ := hplanned.plans e List.mem_cons_self
  have huntouched : ¬Touches todo q := hplanned.not_touches_tail rfl
  have hfresh' : ∀ r ∈ s.rows, Touches todo r → Keyed.find? r.path skipped = none :=
    fun r hr htouches => hfresh r hr (touches_cons.mpr (.inr htouches))
  have hothers : ∀ r : Row, r.id ≠ q.id → (Touches todo r ↔
      Touches (.update q.id q.path expected (Leaves.text (b.merge q old)) :: todo) r) := by
    intro r hid
    have hplace : some q.id ≠ some r.id := fun hplace => hid (Option.some.inj hplace).symm
    rw [touches_cons]
    exact (or_iff_right hplace).symm
  rw [Batch.step, apply_update hq]
  by_cases hexpected : text q.id = expected
  · rw [if_pos hexpected]
    refine ⟨_, rfl, ⟨hplanned.tail, hstale, hfresh'⟩, fun r hr => ?_⟩
    by_cases hid : r.id = q.id
    · rw [hs.eq_of_id hr hq hid, Function.update_self]
      exact .merged old (touches_cons.mpr (.inl rfl)) huntouched (hexpected ▸ hparse)
        ⟨huntouched, hfresh q hq (touches_cons.mpr (.inl rfl))⟩
    · rw [Function.update_of_ne hid]
      exact .idle (hothers r hid)
  · rw [if_neg hexpected]
    refine ⟨text, rfl, ⟨hplanned.tail, fun c hc => ?_, fun r hr htouches => ?_⟩, fun r hr => ?_⟩
    · rcases Keyed.mem_insert hc with rfl | hc
      · rfl
      · exact hstale c hc
    · have hid : q.id ≠ r.id := by
        intro hid
        rw [hs.eq_of_id hq hr hid] at huntouched
        exact huntouched htouches
      have hrnames := (hplanned.tail.of_touches hs hr htouches).1
      rw [Keyed.find?_insert, if_neg (path_ne_of_names hs hq hr hnames hrnames hid)]
      exact hfresh' r hr htouches
    · by_cases hid : r.id = q.id
      · rw [hs.eq_of_id hr hq hid]
        refine .givenUp huntouched ?_
        rw [Stage.GivenUp, Keyed.find?_insert_self]
        exact Option.some_ne_none _
      · exact .idle (hothers r hid)

/-- Rows that were skipped because they changed are reported. -/
theorem answer_of_stale {skipped : Keyed Conflict} (hstale : ∀ c ∈ skipped, c.2 = .stale)
    (summary : Summary) (owner : Owner) :
    (Applied.of summary skipped).answer owner =
      if skipped.isEmpty then .ok summary
      else .error (.concurrent owner.name (skippedPaths .stale skipped)) := by
  have hnone : skippedPaths .duplicate skipped = [] :=
    skippedPaths_eq_nil_iff.mpr fun c hc => by simp [hstale c hc]
  rw [Applied.of]
  split
  · rfl
  · rw [Applied.answer, hnone]

theorem madeAt_answer_iff {skipped : Keyed Conflict} (hstale : ∀ c ∈ skipped, c.2 = .stale)
    (summary : Summary) (owner : Owner) (path : String) :
    madeAt path ((Applied.of summary skipped).answer owner) = true
      ↔ Keyed.find? path skipped = none := by
  rw [answer_of_stale hstale, Keyed.find?_eq_none_iff]
  split
  · rename_i hempty
    simp [madeAt, List.isEmpty_iff.mp hempty]
  · have hmem : path ∈ skippedPaths .stale skipped ↔ ∃ c ∈ skipped, c.1 = path := by
      rw [skippedPaths, List.mem_map]
      refine exists_congr fun c => ⟨fun h => ⟨List.mem_of_mem_filter h.1, h.2⟩, fun h => ⟨?_, h.2⟩⟩
      exact List.mem_filter.mpr ⟨h.1, decide_eq_true (hstale c h.1)⟩
    rw [madeAt, Bool.not_eq_true', List.contains_eq_mem, decide_eq_false_iff_not, hmem]
    simp only [not_exists, not_and, ne_eq]

/-- Every step of a client is a move for every row. -/
theorem step_moves (hs : s.Sound) (hdistinct : b.Distinct) {stage : Stage} (hok : stage.Ok b s)
    (text : Nat → String) : b.Moves s text stage (b.step (s.withTexts text) stage) := by
  cases stage with
  | reading todo planned =>
      cases todo with
      | nil => exact step_writing hs hok
      | cons u todo => exact step_reading hs hdistinct hok
  | retrying todo summary skipped =>
      cases todo with
      | nil =>
          refine ⟨text, rfl, fun e he => .inl ?_, fun r _ => .idle (iff_of_false not_false ?_)⟩
          · have hanswer := answer_of_stale hok.2.1 summary b.owner
            rw [hanswer] at he
            split at he
            · cases he
            · cases he
              rfl
          · rintro ⟨e, he, -⟩
            cases he
      | cons e todo => exact step_retrying hs hok
  | done answer => exact ⟨text, rfl, hok, fun r _ => .idle .rfl⟩

/-! ## What stays -/

/-- A client that has merged its leaves into a row keeps to it. -/
theorem Stage.Made.step (hs : s.Sound) {stage : Stage} (h : stage.Made r) (hr : r ∈ s.rows)
    (hnames : b.Names r) (hok : stage.Ok b s) : (b.step (s.withTexts text) stage).2.Made r := by
  cases stage with
  | reading todo planned => exact h.elim
  | retrying todo summary skipped =>
      obtain ⟨huntouched, hfresh⟩ := h
      cases todo with
      | nil => exact (madeAt_answer_iff hok.2.1 summary b.owner r.path).mpr hfresh
      | cons e todo =>
          obtain ⟨q, hq, hqnames, expected, old, -, rfl⟩ := hok.1.plans e List.mem_cons_self
          have hid : q.id ≠ r.id := fun hid =>
            huntouched (touches_cons.mpr (.inl (congrArg some hid)))
          have htail : ¬Touches todo r := fun htouches =>
            huntouched (touches_cons.mpr (.inr htouches))
          rw [Batch.step, apply_update hq]
          split
          · rename_i happly
            split at happly <;> cases happly
            exact ⟨htail, hfresh⟩
          · rename_i happly
            split at happly <;> cases happly
            refine ⟨htail, ?_⟩
            rw [Keyed.find?_insert, if_neg (path_ne_of_names hs hq hr hqnames hnames hid)]
            exact hfresh
          · rename_i happly
            split at happly <;> cases happly
  | done answer => exact h

/-- A client that has given a row up does not change its mind. -/
theorem Stage.GivenUp.step {stage : Stage} (h : stage.GivenUp r) (hok : stage.Ok b s) :
    (b.step (s.withTexts text) stage).2.GivenUp r := by
  cases stage with
  | reading todo planned => exact h.elim
  | retrying todo summary skipped =>
      cases todo with
      | nil =>
          refine Bool.eq_false_iff.mpr fun hmade => h ?_
          exact (madeAt_answer_iff hok.2.1 summary b.owner r.path).mp hmade
      | cons e todo =>
          obtain ⟨q, hq, -, expected, old, -, rfl⟩ := hok.1.plans e List.mem_cons_self
          rw [Batch.step, apply_update hq]
          split
          · exact h
          · show Keyed.find? _ (Keyed.insert _ _ _) ≠ none
            rw [Keyed.find?_insert]
            split
            · exact Option.some_ne_none _
            · exact h
          · rename_i happly
            split at happly <;> cases happly
  | done answer => exact h

end

end DataTree
