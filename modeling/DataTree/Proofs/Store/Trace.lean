import DataTree.Proofs.Store.Reconcile
import DataTree.Proofs.Store.Turns

/-!
# How edits of one plan meet each other

The edits of a plan name rows as they were, but each meets the store that
the edits before it left.  What became of the rows of the plan can be read
off the edits done: a row is gone exactly if one of them removed a row at or
above it, and it still has its leaves exactly if none gave it others.  So an
edit meets a stale row exactly if an earlier one spoils it.

## Main definitions

* `Edit.Spoils` — one planned edit makes the row of another stale.
* `Traces` — a store after edits of a plan.

## Main results

* `Traces.effect` — one more edit.
* `Traces.keeps_leaves_iff` — when a row still has its leaves.
* `Traces.stale_iff` — an edit is stale exactly if one done spoils it.
* `stale_not_mem_skipped_iff` — none is stale exactly if none spoils another.
-/

namespace DataTree

namespace Edit

/-- Whether an edit removes a row at or above a row. -/
def Removes (rows : List Row) (e : Edit) (r : Row) : Prop :=
  ∃ q, AtOrBelow rows q r ∧ ∃ path, e = .remove q.id path

/-- Whether an edit gives a row leaves. -/
def Updates (e : Edit) (id : Nat) (attributes : String) : Prop :=
  ∃ path expected, e = .update id path expected attributes

/-- Whether an edit makes the row of another stale: by removing the row, or
by giving it leaves that the other does not expect. -/
def Spoils (rows : List Row) (e : Edit) : Edit → Prop
  | .remove id _ => ∃ r ∈ rows, r.id = id ∧ e.Removes rows r
  | .update id _ expected _ => (∃ r ∈ rows, r.id = id ∧ e.Removes rows r)
      ∨ ∃ attributes, attributes ≠ expected ∧ e.Updates id attributes
  | .insert .. => False

theorem not_removes_update {rows : List Row} {r : Row} {id : Nat}
    {path expected attributes : String} :
    ¬(Edit.update id path expected attributes).Removes rows r := by
  rintro ⟨q, -, path', heq⟩
  cases heq

theorem not_removes_insert {rows : List Row} {r : Row} {parent : Option Nat} {d : Draft} :
    ¬(Edit.insert parent d).Removes rows r := by
  rintro ⟨q, -, path, heq⟩
  cases heq

theorem not_updates_remove {id id' : Nat} {path attributes : String} :
    ¬(Edit.remove id path).Updates id' attributes := by
  rintro ⟨path', expected, heq⟩
  cases heq

theorem not_updates_insert {parent : Option Nat} {d : Draft} {id : Nat} {attributes : String} :
    ¬(Edit.insert parent d).Updates id attributes := by
  rintro ⟨path, expected, heq⟩
  cases heq

theorem updates_update_iff {id id' : Nat} {path expected attributes attributes' : String} :
    (Edit.update id path expected attributes).Updates id' attributes'
      ↔ id' = id ∧ attributes' = attributes := by
  constructor
  · rintro ⟨path', expected', heq⟩
    cases heq
    exact ⟨rfl, rfl⟩
  · rintro ⟨rfl, rfl⟩
    exact ⟨path, expected, rfl⟩

/-- Insertions spoil nothing. -/
theorem not_spoils_insert {rows : List Row} {parent : Option Nat} {d : Draft} {f : Edit} :
    ¬(Edit.insert parent d).Spoils rows f := by
  cases f with
  | remove id path =>
      rintro ⟨r, -, -, hremoves⟩
      exact not_removes_insert hremoves
  | update id path expected attributes =>
      rintro (⟨r, -, -, hremoves⟩ | ⟨a, -, hupdates⟩)
      · exact not_removes_insert hremoves
      · exact not_updates_insert hupdates
  | insert parent' d' => exact not_false

theorem not_spoils_of_isInsert {rows : List Row} {e f : Edit} (he : e.isInsert = true) :
    ¬e.Spoils rows f := by
  cases e with
  | remove id path => cases he
  | update id path expected attributes => cases he
  | insert parent d => exact not_spoils_insert

end Edit

/-- A store `t` that came from `s` by the edits `done`, all of them planned
against `s`. -/
structure Traces (s : Store) (done : List Edit) (t : Store) : Prop where
  sound : t.Sound
  last : s.lastRow ≤ t.lastRow
  /-- Rows under old ids are old rows, perhaps with other leaves. -/
  rows : ∀ r' ∈ t.rows, r'.id ≤ s.lastRow →
    ∃ r ∈ s.rows, r' = { r with attributes := r'.attributes }
  /-- Old rows stay unless they were removed. -/
  stays : ∀ r ∈ s.rows, t.hasRow r.id = true ↔ ∀ d ∈ done, ¬d.Removes s.rows r
  /-- Leaves are the old ones, or such as an edit has given. -/
  leaves : ∀ r ∈ s.rows, ∀ r' ∈ t.rows, r'.id = r.id →
    (r'.attributes = r.attributes ∧ ∀ d ∈ done, ∀ a, ¬d.Updates r.id a)
      ∨ ∃ d ∈ done, d.Updates r.id r'.attributes
  /-- No edit has given other leaves to a row that has its old ones. -/
  unspoiled : ∀ r ∈ s.rows, ∀ r' ∈ t.rows, r'.id = r.id → r'.attributes = r.attributes →
    ∀ d ∈ done, ∀ a, d.Updates r.id a → a = r.attributes

namespace Traces

variable {owner : Nat} {s t : Store} {done : List Edit}

theorem start (hs : s.Sound) : Traces s [] s where
  sound := hs
  last := Nat.le_refl _
  rows := fun r hr _ => ⟨r, hr, rfl⟩
  stays := by
    intro r hr
    simp only [List.not_mem_nil, false_implies, implies_true, iff_true]
    exact Store.hasRow_iff.mpr ⟨r, hr, rfl⟩
  leaves := by
    intro r hr r' hr' hid
    rw [hs.eq_of_id hr' hr hid]
    exact .inl ⟨rfl, by simp⟩
  unspoiled := by simp

theorem eq_of_id (h : Traces s done t) (hs : s.Sound) {r r' : Row} (hr : r ∈ s.rows)
    (hr' : r' ∈ t.rows) (hid : r'.id = r.id) : r' = { r with attributes := r'.attributes } := by
  obtain ⟨q, hq, heq⟩ := h.rows r' hr' (hid ▸ hs.fresh r hr)
  have hqid : q.id = r.id := by rw [← hid, heq]
  rw [hs.eq_of_id hq hr hqid] at heq
  exact heq

theorem parent_eq (h : Traces s done t) (hs : s.Sound) {r r' : Row} (hr : r ∈ s.rows)
    (hr' : r' ∈ t.rows) (hid : r'.id = r.id) : r'.parent = r.parent := by
  rw [h.eq_of_id hs hr hr' hid]

/-- What is above an old row now was above it before. -/
theorem above_before (h : Traces s done t) (hs : s.Sound) {a' r' : Row}
    (ha : AtOrBelow t.rows a' r') {r : Row} (hr : r ∈ s.rows) (hid : r'.id = r.id) :
    ∃ a, AtOrBelow s.rows a r ∧ a.id = a'.id := by
  induction ha generalizing r with
  | self _ => exact ⟨r, .self hr, hid.symm⟩
  | @step q' r' _ hr' hp ih =>
      rw [h.parent_eq hs hr hr' hid] at hp
      obtain ⟨q, hq, hqid, -⟩ := hs.linked r hr q'.id hp
      obtain ⟨a, haq, haid⟩ := ih hq hqid.symm
      exact ⟨a, haq.step hr (by rw [hp, hqid]), haid⟩

/-- What was above a row that is still there is above it now. -/
theorem above_after (h : Traces s done t) (hs : s.Sound) {a r : Row}
    (ha : AtOrBelow s.rows a r) {r' : Row} (hr' : r' ∈ t.rows) (hid : r'.id = r.id) :
    ∃ a', AtOrBelow t.rows a' r' ∧ a'.id = a.id := by
  induction ha generalizing r' with
  | self _ => exact ⟨r', .self hr', hid⟩
  | @step q r _ hr hp ih =>
      rw [← h.parent_eq hs hr hr' hid] at hp
      obtain ⟨q', hq', hqid, -⟩ := h.sound.linked r' hr' q.id hp
      obtain ⟨a', haq, haid⟩ := ih hq' hqid
      exact ⟨a', haq.step hr' (by rw [hp, hqid]), haid⟩

theorem effect_remove (h : Traces s done t) (hs : s.Sound) (id : Nat) (path : String) :
    Traces s (.remove id path :: done) ((Edit.remove id path).effect owner t) := by
  have hmem : ∀ r', r' ∈ ((Edit.remove id path).effect owner t).rows ↔
      r' ∈ t.rows ∧ ¬Falls (fun r => r.id = id) t.rows r' :=
    fun r' => Store.mem_survivors_iff h.sound.ordered
  refine
    { sound := h.sound.removeRows _
      last := h.last
      rows := fun r' hr' hold => h.rows r' ((hmem r').mp hr').1 hold
      stays := ?_, leaves := ?_, unspoiled := ?_ }
  · intro r hr
    simp only [List.mem_cons, forall_eq_or_imp]
    rw [← h.stays r hr, Store.hasRow_iff, Store.hasRow_iff]
    constructor
    · rintro ⟨r', hr', hid⟩
      obtain ⟨hrow, hstays⟩ := (hmem r').mp hr'
      refine ⟨?_, r', hrow, hid⟩
      rintro ⟨q, hq, path', heq⟩
      cases heq
      obtain ⟨q', hq', hqid⟩ := h.above_after hs hq hrow hid
      exact hstays ⟨q', hq', by simpa using hqid⟩
    · rintro ⟨hkept, r', hr', hid⟩
      refine ⟨r', (hmem r').mpr ⟨hr', ?_⟩, hid⟩
      rintro ⟨q', hq', hqid⟩
      obtain ⟨q, hq, hqid'⟩ := h.above_before hs hq' hr hid
      have hqid : q'.id = id := by simpa using hqid
      exact hkept ⟨q, hq, path, by rw [hqid', hqid]⟩
  · intro r hr r' hr' hid
    rcases h.leaves r hr r' ((hmem r').mp hr').1 hid with ⟨heq, hnone⟩ | ⟨d, hd, hupdates⟩
    · exact .inl ⟨heq, List.forall_mem_cons.mpr ⟨fun a => Edit.not_updates_remove, hnone⟩⟩
    · exact .inr ⟨d, List.mem_cons_of_mem _ hd, hupdates⟩
  · intro r hr r' hr' hid heq
    exact List.forall_mem_cons.mpr ⟨fun a hupdates => absurd hupdates Edit.not_updates_remove,
      h.unspoiled r hr r' ((hmem r').mp hr').1 hid heq⟩

theorem effect_update (h : Traces s done t) (hs : s.Sound) {id : Nat}
    {path expected attributes : String}
    (hplanned : (Edit.update id path expected attributes).Planned owner s)
    (hfree : (Edit.update id path expected attributes).conflict? owner t = none)
    (hsound : ((Edit.update id path expected attributes).effect owner t).Sound) :
    Traces s (.update id path expected attributes :: done)
      ((Edit.update id path expected attributes).effect owner t) := by
  -- the row still has the leaves that the plan saw
  have hseen : ∀ r ∈ s.rows, ∀ r' ∈ t.rows, r'.id = r.id → r.id = id →
      r'.attributes = r.attributes := by
    intro r hr r' hr' hrid hrid'
    obtain ⟨q, hq, -, hqid, -, hexpected⟩ := hplanned
    obtain ⟨x, hx, hxid, hxleaves⟩ := Edit.conflict?_update_eq_none_iff.mp hfree
    have hqr : q = r := hs.eq_of_id hq hr (hqid.trans hrid'.symm)
    have hxr : x = r' := h.sound.eq_of_id hx hr' (hxid.trans (hrid.trans hrid').symm)
    rw [← hqr, hexpected, ← hxr, hxleaves]
  refine
    { sound := hsound, last := h.last, rows := ?_, stays := ?_, leaves := ?_, unspoiled := ?_ }
  · intro r' hr' hold
    obtain ⟨x, hx, ⟨-, rfl⟩ | ⟨-, rfl⟩⟩ := Edit.mem_effect_update_iff.mp hr'
    · obtain ⟨r, hr, heq⟩ := h.rows x hx hold
      exact ⟨r, hr, by rw [heq]⟩
    · exact h.rows r' hx hold
  · intro r hr
    rw [Edit.hasRow_effect_update, h.stays r hr, List.forall_mem_cons]
    exact (and_iff_right Edit.not_removes_update).symm
  · intro r hr r' hr' hrid
    obtain ⟨x, hx, ⟨hxid, rfl⟩ | ⟨hxid, rfl⟩⟩ := Edit.mem_effect_update_iff.mp hr'
    · exact .inr ⟨_, List.mem_cons_self, Edit.updates_update_iff.mpr ⟨hrid.symm.trans hxid, rfl⟩⟩
    · rcases h.leaves r hr r' hx hrid with ⟨heq, hnone⟩ | ⟨d, hd, hupdates⟩
      · refine .inl ⟨heq, List.forall_mem_cons.mpr ⟨fun a hupdates => ?_, hnone⟩⟩
        exact hxid (hrid.trans (Edit.updates_update_iff.mp hupdates).1)
      · exact .inr ⟨d, List.mem_cons_of_mem _ hd, hupdates⟩
  · intro r hr r' hr' hrid heq
    obtain ⟨x, hx, ⟨hxid, rfl⟩ | ⟨hxid, rfl⟩⟩ := Edit.mem_effect_update_iff.mp hr'
    · have hold := hseen r hr x hx hrid (hrid.symm.trans hxid)
      refine List.forall_mem_cons.mpr ⟨fun a hupdates => ?_, h.unspoiled r hr x hx hrid hold⟩
      exact (Edit.updates_update_iff.mp hupdates).2.trans heq
    · refine List.forall_mem_cons.mpr ⟨fun a hupdates => ?_, h.unspoiled r hr r' hx hrid heq⟩
      exact absurd (hrid.trans (Edit.updates_update_iff.mp hupdates).1) hxid

theorem effect_insert (h : Traces s done t) (hs : s.Sound) {parent : Option Nat} {d : Draft}
    (hsound : ((Edit.insert parent d).effect owner t).Sound) :
    Traces s (.insert parent d :: done) ((Edit.insert parent d).effect owner t) := by
  -- new rows have ids above all that the plan saw
  have hold : ∀ r' ∈ ((Edit.insert parent d).effect owner t).rows, r'.id ≤ s.lastRow →
      r' ∈ t.rows := by
    intro r' hr' hle
    rcases List.mem_append.mp hr' with hr' | hr'
    · exact hr'
    · have hnew := Draft.le_id_of_mem_rows d hr'
      have hlast := h.last
      omega
  have hle : ∀ {r r' : Row}, r ∈ s.rows → r'.id = r.id → r'.id ≤ s.lastRow :=
    fun hr hid => hid ▸ hs.fresh _ hr
  refine
    { sound := hsound
      last := Nat.le_trans h.last (Nat.le_add_right _ _)
      rows := fun r' hr' hid => h.rows r' (hold r' hr' hid) hid
      stays := ?_, leaves := ?_, unspoiled := ?_ }
  · intro r hr
    simp only [List.mem_cons, forall_eq_or_imp]
    rw [← h.stays r hr, Store.hasRow_iff, Store.hasRow_iff]
    constructor
    · rintro ⟨r', hr', hid⟩
      exact ⟨Edit.not_removes_insert, r', hold r' hr' (hle hr hid), hid⟩
    · rintro ⟨-, r', hr', hid⟩
      exact ⟨r', List.mem_append_left _ hr', hid⟩
  · intro r hr r' hr' hid
    rcases h.leaves r hr r' (hold r' hr' (hle hr hid)) hid with ⟨heq, hnone⟩ | ⟨e, he, hupdates⟩
    · exact .inl ⟨heq, List.forall_mem_cons.mpr ⟨fun a => Edit.not_updates_insert, hnone⟩⟩
    · exact .inr ⟨e, List.mem_cons_of_mem _ he, hupdates⟩
  · intro r hr r' hr' hid heq
    exact List.forall_mem_cons.mpr ⟨fun a hupdates => absurd hupdates Edit.not_updates_insert,
      h.unspoiled r hr r' (hold r' hr' (hle hr hid)) hid heq⟩

theorem follows (h : Traces s done t) : s.Follows t := by
  refine ⟨h.last, fun r' hr' hle => ?_⟩
  obtain ⟨r, hr, heq⟩ := h.rows r' hr' hle
  rw [heq]
  exact ⟨r, hr, rfl, rfl, rfl⟩

/-- One more edit of the plan. -/
theorem effect (h : Traces s done t) (hs : s.Sound) {e : Edit} (hplanned : e.Planned owner s)
    (hfault : ¬e.Faults owner t) (hfree : e.conflict? owner t = none) :
    Traces s (e :: done) (e.effect owner t) := by
  have hsound := h.sound.effect ((hplanned.fits hs).follows h.follows) hfault hfree
  cases e with
  | remove id path => exact h.effect_remove hs id path
  | update id path expected attributes => exact h.effect_update hs hplanned hfree hsound
  | insert parent d => exact h.effect_insert hs hsound

/-! ## Stale rows -/

/-- A row has its old leaves exactly if no edit has removed it or given it
others. -/
theorem keeps_leaves_iff (h : Traces s done t) {r : Row} (hr : r ∈ s.rows) :
    (∃ r' ∈ t.rows, r'.id = r.id ∧ r'.attributes = r.attributes) ↔
      ∀ d ∈ done, ¬d.Removes s.rows r ∧ ∀ a, d.Updates r.id a → a = r.attributes := by
  constructor
  · rintro ⟨r', hr', hid, hleaves⟩ d hd
    have hrow : t.hasRow r.id = true := Store.hasRow_iff.mpr ⟨r', hr', hid⟩
    exact ⟨(h.stays r hr).mp hrow d hd, h.unspoiled r hr r' hr' hid hleaves d hd⟩
  · intro hkept
    have hrow : t.hasRow r.id = true := (h.stays r hr).mpr fun d hd => (hkept d hd).1
    obtain ⟨r', hr', hid⟩ := Store.hasRow_iff.mp hrow
    refine ⟨r', hr', hid, ?_⟩
    rcases h.leaves r hr r' hr' hid with ⟨heq, -⟩ | ⟨d, hd, hupdates⟩
    · exact heq
    · exact (hkept d hd).2 r'.attributes hupdates

/-- An edit meets a stale row exactly if one that was done spoils it. -/
theorem stale_iff (h : Traces s done t) (hs : s.Sound) {f : Edit} (hf : f.Planned owner s) :
    (∃ path, f.conflict? owner t = some (path, .stale)) ↔ ∃ d ∈ done, d.Spoils s.rows f := by
  have hremoves : ∀ {r : Row}, r ∈ s.rows → ∀ d : Edit,
      (∃ q ∈ s.rows, q.id = r.id ∧ d.Removes s.rows q) ↔ d.Removes s.rows r := by
    intro r hr d
    constructor
    · rintro ⟨q, hq, hid, hremoves⟩
      rw [hs.eq_of_id hq hr hid] at hremoves
      exact hremoves
    · exact fun hremoves => ⟨r, hr, rfl, hremoves⟩
  cases f with
  | remove id path =>
      obtain ⟨r, hr, -, rfl, rfl⟩ := hf
      rw [Edit.stale_iff_of_not_insert rfl, Edit.conflict?_remove_eq_none_iff, h.stays r hr]
      simp only [not_forall, not_not, exists_prop, Edit.Spoils, hremoves hr]
  | update id path expected attributes =>
      obtain ⟨r, hr, -, rfl, rfl, rfl⟩ := hf
      rw [Edit.stale_iff_of_not_insert rfl, Edit.conflict?_update_eq_none_iff,
        h.keeps_leaves_iff hr]
      simp only [not_forall, not_and_or, not_not, exists_prop, Edit.Spoils, hremoves hr,
        and_comm, ne_eq]
  | insert parent d =>
      constructor
      · rintro ⟨path, hstale⟩
        cases Edit.kind_of_conflict hstale
      · rintro ⟨e, -, hspoils⟩
        exact hspoils.elim

end Traces

/-- None of the edits still to come is stale exactly if none of those done
and none of those before it spoils it. -/
theorem stale_not_mem_skipped_iff {owner : Nat} {s t : Store} {done rest : List Edit}
    (hs : s.Sound) (h : Traces s done t) (hplanned : ∀ e ∈ rest, e.Planned owner s)
    (hunfaulted : Unfaulted owner rest t) :
    (∀ c ∈ (inTurn owner rest t).skipped, c.2 ≠ .stale) ↔
      (∀ f ∈ rest, ∀ d ∈ done, ¬d.Spoils s.rows f)
        ∧ rest.Pairwise fun e f => ¬e.Spoils s.rows f := by
  induction rest generalizing done t with
  | nil => simp [inTurn]
  | cons e rest ih =>
      obtain ⟨hfault, hunfaulted⟩ := hunfaulted
      have he := hplanned e List.mem_cons_self
      have hrest := fun f hf => hplanned f (List.mem_cons_of_mem e hf)
      have hunspoiled : (∀ path, e.conflict? owner t ≠ some (path, .stale)) →
          ∀ d ∈ done, ¬d.Spoils s.rows e := by
        intro hne d hd hspoils
        obtain ⟨path, hstale⟩ := (h.stale_iff hs he).mpr ⟨d, hd, hspoils⟩
        exact hne path hstale
      simp only [List.mem_cons, forall_eq_or_imp, List.pairwise_cons]
      cases hconflict : e.conflict? owner t with
      | none =>
          have hfirst := hunspoiled (by simp [hconflict])
          rw [inTurn_cons_of_free hconflict,
            ih (h.effect hs he hfault hconflict) hrest (turn_of_free hconflict ▸ hunfaulted)]
          simp only [List.mem_cons, forall_eq_or_imp]
          constructor
          · rintro ⟨hall, hpairs⟩
            exact ⟨⟨hfirst, fun f hf => (hall f hf).2⟩, fun f hf => (hall f hf).1, hpairs⟩
          · rintro ⟨⟨-, hall⟩, he, hpairs⟩
            exact ⟨fun f hf => ⟨he f hf, hall f hf⟩, hpairs⟩
      | some conflict =>
          rw [turn_of_conflict hconflict] at hunfaulted
          rw [inTurn_cons_of_conflict hconflict]
          simp only [List.mem_cons, forall_eq_or_imp]
          rw [ih h hrest hunfaulted]
          obtain ⟨path, kind⟩ := conflict
          cases kind with
          | stale =>
              obtain ⟨d, hd, hspoils⟩ := (h.stale_iff hs he).mp ⟨path, hconflict⟩
              constructor
              · rintro ⟨hne, -⟩
                exact absurd rfl hne
              · rintro ⟨⟨hfirst, -⟩, -⟩
                exact absurd hspoils (hfirst d hd)
          | duplicate =>
              -- only an insertion is a duplicate, and it spoils nothing
              have hinsert := Edit.isInsert_of_duplicate hconflict
              have hfirst := hunspoiled (by simp [hconflict])
              constructor
              · rintro ⟨-, hall, hpairs⟩
                exact ⟨⟨hfirst, hall⟩, fun f _ => Edit.not_spoils_of_isInsert hinsert, hpairs⟩
              · rintro ⟨⟨-, hall⟩, -, hpairs⟩
                exact ⟨Conflict.noConfusion, hall, hpairs⟩

/-- The edits of a plan that took effect leave a trace. -/
theorem traces_done {owner : Nat} {s t : Store} {done rest : List Edit} (hs : s.Sound)
    (h : Traces s done t) (hplanned : ∀ e ∈ rest, e.Planned owner s)
    (hunfaulted : Unfaulted owner rest t) :
    Traces s ((inTurn owner rest t).done.reverse ++ done) (inTurn owner rest t).store := by
  induction rest generalizing done t with
  | nil => exact h
  | cons e rest ih =>
      obtain ⟨hfault, hunfaulted⟩ := hunfaulted
      have he := hplanned e List.mem_cons_self
      have hrest := fun f hf => hplanned f (List.mem_cons_of_mem e hf)
      cases hconflict : e.conflict? owner t with
      | none =>
          rw [turn_of_free hconflict] at hunfaulted
          rw [inTurn_cons_of_free hconflict, List.reverse_cons, List.append_assoc]
          exact ih (h.effect hs he hfault hconflict) hrest hunfaulted
      | some conflict =>
          rw [turn_of_conflict hconflict] at hunfaulted
          rw [inTurn_cons_of_conflict hconflict]
          exact ih h hrest hunfaulted

theorem traces_inTurn {owner : Nat} {s t : Store} {done rest : List Edit} (hs : s.Sound)
    (h : Traces s done t) (hplanned : ∀ e ∈ rest, e.Planned owner s)
    (hunfaulted : Unfaulted owner rest t) (hnone : (inTurn owner rest t).skipped = []) :
    Traces s (rest.reverse ++ done) (inTurn owner rest t).store := by
  have htraces := traces_done hs h hplanned hunfaulted
  rwa [done_of_unskipped hnone] at htraces

end DataTree
