import DataTree.Proofs.Store.Plan
import DataTree.Proofs.Store.Turns

/-!
# Rows whose leaves change

Updates give rows new leaves and touch nothing else, so a store that only
updates have changed is an earlier store and a text for each of its rows.
An update compares the text of its row with the one it expects, and sets it
if they agree.

## Main definitions

* `Store.withTexts` — a store in which the rows have other leaves.

## Main results

* `apply_update` — an update compares and sets one text.
* `applyAll_updates` — updates of different rows set all their texts, or
  none.
* `mergeEdits_withTexts` — what is planned for a row follows from its text.
-/

namespace DataTree

/-- A store in which the rows have other leaves. -/
def Store.withTexts (s : Store) (text : Nat → String) : Store :=
  { s with rows := s.rows.map fun r => { r with attributes := text r.id } }

/-- The leaves of the rows as text. -/
def Store.texts (s : Store) (id : Nat) : String :=
  ((s.rows.find? fun r => r.id = id).map Row.attributes).getD ""

section

variable {s : Store} {text : Nat → String} {owner : Nat} {r : Row}

theorem texts_of_mem (hs : s.Sound) (hr : r ∈ s.rows) : s.texts r.id = r.attributes := by
  rw [Store.texts]
  cases hfind : s.rows.find? fun q => q.id = r.id with
  | none => simpa using List.find?_eq_none.mp hfind r hr
  | some q =>
      have hid : q.id = r.id := by simpa using List.find?_some hfind
      rw [hs.eq_of_id (List.mem_of_find?_eq_some hfind) hr hid]
      rfl

/-- A store has its own leaves. -/
theorem withTexts_texts (hs : s.Sound) : s.withTexts s.texts = s := by
  have hrows : (s.rows.map fun r => { r with attributes := s.texts r.id }) = s.rows := by
    refine (List.map_congr_left fun r hr => ?_).trans (List.map_id s.rows)
    rw [texts_of_mem hs hr]
    rfl
  rw [Store.withTexts, hrows]

theorem mem_withTexts {r' : Row} : r' ∈ (s.withTexts text).rows ↔
    ∃ r ∈ s.rows, r' = { r with attributes := text r.id } := by
  simp only [Store.withTexts, List.mem_map, eq_comm]

theorem text_eq_of_withTexts (hr : r ∈ s.rows) {text' : Nat → String}
    (h : s.withTexts text = s.withTexts text') : text r.id = text' r.id := by
  have hrows := List.map_inj_left.mp (congrArg Store.rows h) r hr
  exact congrArg Row.attributes hrows

theorem rowAt?_withTexts (path : String) : (s.withTexts text).rowAt? owner path =
    (s.rowAt? owner path).map fun r => { r with attributes := text r.id } := by
  rw [Store.rowAt?, Store.withTexts, List.find?_map]
  rfl

/-! ## Updates -/

/-- An update compares and sets the text of its row. -/
theorem apply_update (hr : r ∈ s.rows) (path expected attributes : String) :
    (Edit.update r.id path expected attributes).apply owner (s.withTexts text) =
      if text r.id = expected then
        (s.withTexts (Function.update text r.id attributes), .ok { updated := 1 })
      else (s.withTexts text, .error (.conflict path .stale)) := by
  have hany : ((s.withTexts text).rows.any fun q => q.id = r.id && q.attributes = expected) = true
      ↔ text r.id = expected := by
    rw [List.any_eq_true]
    constructor
    · rintro ⟨q', hq', hmatch⟩
      obtain ⟨q, -, rfl⟩ := mem_withTexts.mp hq'
      simp only [Bool.and_eq_true, decide_eq_true_eq] at hmatch
      rw [← hmatch.1, hmatch.2]
    · intro heq
      exact ⟨_, mem_withTexts.mpr ⟨r, hr, rfl⟩, by simp [heq]⟩
  have hset : ((s.withTexts text).rows.map fun q =>
      if q.id = r.id then { q with attributes := attributes } else q)
      = (s.withTexts (Function.update text r.id attributes)).rows := by
    rw [Store.withTexts, Store.withTexts, List.map_map]
    refine List.map_congr_left fun q _ => ?_
    rw [Function.comp_apply, Function.update_apply]
    split <;> rfl
  rw [Edit.apply, Store.updateRow]
  by_cases heq : text r.id = expected
  · rw [if_pos (hany.mpr heq), if_pos heq, hset]
    rfl
  · rw [if_neg (mt hany.mp heq), if_neg heq]

/-- Updates are applied in the order given. -/
theorem inOrder_of_updates {edits : List Edit} (hedits : ∀ e ∈ edits, ∃ r ∈ s.rows,
    ∃ expected attributes, e = .update r.id r.path expected attributes) :
    inOrder edits = edits := by
  have hupdate : ∀ e ∈ edits, e.isUpdate = true ∧ e.isRemove = false ∧ e.isInsert = false := by
    intro e he
    obtain ⟨r, -, expected, attributes, rfl⟩ := hedits e he
    exact ⟨rfl, rfl, rfl⟩
  have hremove : edits.filter Edit.isRemove = [] :=
    List.filter_eq_nil_iff.mpr fun e he => by simp [(hupdate e he).2.1]
  have hinsert : edits.filter Edit.isInsert = [] :=
    List.filter_eq_nil_iff.mpr fun e he => by simp [(hupdate e he).2.2]
  rw [inOrder, hremove, hinsert, List.filter_eq_self.mpr fun e he => (hupdate e he).1,
    List.nil_append, List.append_nil]

/-- Updates of different rows are refused for a text that is not as expected,
or set the texts of their rows and no others. -/
theorem applyAll_updates {edits : List Edit}
    (hedits : ∀ e ∈ edits, ∃ r ∈ s.rows, ∃ expected attributes,
      e = .update r.id r.path expected attributes)
    (hdistinct : edits.Pairwise fun e f => e.place? ≠ f.place?) (text : Nat → String) :
    (∃ id path expected attributes, .update id path expected attributes ∈ edits
        ∧ text id ≠ expected
        ∧ applyAll owner edits (s.withTexts text) = .error (.conflict path .stale)) ∨
      ∃ text' summary, applyAll owner edits (s.withTexts text) = .ok (s.withTexts text', summary)
        ∧ (∀ id, (∀ e ∈ edits, e.place? ≠ some id) → text' id = text id)
        ∧ ∀ id path expected attributes, .update id path expected attributes ∈ edits →
          text id = expected ∧ text' id = attributes := by
  induction edits generalizing text with
  | nil => exact .inr ⟨text, {}, rfl, fun _ _ => rfl, fun _ _ _ _ h => absurd h List.not_mem_nil⟩
  | cons e rest ih =>
      obtain ⟨r, hr, expected, attributes, rfl⟩ := hedits e List.mem_cons_self
      obtain ⟨hfirst, hrest⟩ := List.pairwise_cons.mp hdistinct
      have hothers : ∀ f ∈ rest, f.place? ≠ some r.id := fun f hf => (hfirst f hf).symm
      have hkept : ∀ {id path expected' attributes'},
          .update id path expected' attributes' ∈ rest →
          Function.update text r.id attributes id = text id := fun hmem =>
        Function.update_of_ne (fun hid => hothers _ hmem (congrArg some hid)) attributes text
      rw [applyAll, apply_update hr]
      by_cases heq : text r.id = expected
      · rw [if_pos heq]
        rcases ih (fun f hf => hedits f (List.mem_cons_of_mem _ hf)) hrest
          (Function.update text r.id attributes) with
          ⟨id, path, other, attributes', hmem, hother, hall⟩ | ⟨text', more, hall, hsame, hset⟩
        · rw [hkept hmem] at hother
          refine .inl ⟨id, path, other, attributes', List.mem_cons_of_mem _ hmem, hother, ?_⟩
          simp only
          rw [hall]
        · refine .inr ⟨text', _, by simp only; rw [hall], fun id hid => ?_, ?_⟩
          · rw [hsame id fun f hf => hid f (List.mem_cons_of_mem _ hf), Function.update_of_ne]
            rintro rfl
            exact hid _ List.mem_cons_self rfl
          · intro id path expected' attributes' hmem
            rcases List.mem_cons.mp hmem with hhead | hmem
            · cases hhead
              exact ⟨heq, by rw [hsame r.id hothers, Function.update_self]⟩
            · rw [← hkept hmem]
              exact hset id path expected' attributes' hmem
      · rw [if_neg heq]
        exact .inl ⟨r.id, r.path, expected, attributes, List.mem_cons_self, heq, rfl⟩

/-! ## Plans -/

/-- What is planned for an update follows from the text of its row. -/
theorem mergeEdits_withTexts (path : String) (leaves : Leaves) :
    mergeEdits (s.withTexts text) owner path leaves =
      match (Path.normalize path).toOption.bind (s.rowAt? owner) with
      | none => .ok []
      | some r =>
        match Leaves.parse (text r.id) with
        | none => .error .unreadableLeaves
        | some old =>
          .ok (if Leaves.same (Keyed.insertAll old leaves) old then []
            else [.update r.id r.path (text r.id) (Leaves.text (Keyed.insertAll old leaves))]) := by
  rw [mergeEdits]
  cases (Path.normalize path).toOption with
  | none => rfl
  | some target =>
      rw [Option.bind_some, Option.bind_some, rowAt?_withTexts]
      cases s.rowAt? owner target with
      | none => rfl
      | some r => rfl

end

end DataTree
