import DataTree.Proofs.Store.Ancestry

/-!
# How far down a removal reaches

A row that is removed takes along the rows that hang under it, these take along theirs,
and the engine follows only so many levels.  One pass over the rows gives each row that
goes the level of the row it hangs under and one more, and the removal is refused if a
level is out of reach.  So what matters is how many levels a row is below the rows that
were to be removed, and not in which order they stand or how many rows there are.

## Main definitions

* `Descends` — a row so many levels below another.
* `Levels` — the invariant of the pass.

## Main results

* `goesTooDeep_iff` — a removal is refused exactly if a row is too far below one of the
  rows to be removed.
-/

namespace DataTree

/-- `Descends rows n top r`: the row `r` hangs under `top`, through `n - 1` rows between
them, or is `top` if `n` is zero. -/
inductive Descends (rows : List Row) : Nat → Row → Row → Prop where
  | self {r : Row} : r ∈ rows → Descends rows 0 r r
  | step {n : Nat} {top q r : Row} : Descends rows n top q → r ∈ rows →
      r.parent = some q.id → Descends rows (n + 1) top r

namespace Descends

variable {rows : List Row} {n m : Nat} {a b r : Row}

theorem atOrBelow (h : Descends rows n a r) : AtOrBelow rows a r := by
  induction h with
  | self hr => exact .self hr
  | step _ hr hparent ih => exact ih.step hr hparent

theorem mem_top (h : Descends rows n a r) : a ∈ rows := h.atOrBelow.mem_top

theorem trans (hab : Descends rows n a b) (hbr : Descends rows m b r) :
    Descends rows (n + m) a r := by
  induction hbr with
  | self _ => exact hab
  | step _ hr hparent ih => exact (ih hab).step hr hparent

/-- On the way down every level is passed. -/
theorem exists_at (h : Descends rows n a r) (hm : m ≤ n) : ∃ q, Descends rows m a q := by
  induction h with
  | @self r hr => exact ⟨r, (Nat.le_zero.mp hm) ▸ .self hr⟩
  | @step k top q r hq hr hparent ih =>
      rcases Nat.le_succ_iff.mp hm with hle | rfl
      · exact ih hle
      · exact ⟨r, hq.step hr hparent⟩

/-- More rows leave a row where it was. -/
theorem mono {rows' : List Row} (h : Descends rows n a r) (hrows : ∀ q ∈ rows, q ∈ rows') :
    Descends rows' n a r := by
  induction h with
  | self hr => exact .self (hrows _ hr)
  | step _ hr hparent ih => exact ih.step (hrows _ hr) hparent

end Descends

theorem AtOrBelow.descends {rows : List Row} {a r : Row} (h : AtOrBelow rows a r) :
    ∃ n, Descends rows n a r := by
  induction h with
  | self hr => exact ⟨0, .self hr⟩
  | step _ hr hparent ih =>
      obtain ⟨n, hn⟩ := ih
      exact ⟨n + 1, hn.step hr hparent⟩

/-- The invariant of the pass over the rows: `gone` holds the ids of the rows passed so
far that go, each with a level that it has below some row to be removed and has below
none a greater. -/
structure Levels (p : Row → Bool) (top : Nat) (all done : List Row)
    (gone : List (Nat × Nat)) : Prop where
  reached : ∀ id level, gone.lookup id = some level →
    ∃ q ∈ done, q.id = id ∧ ∃ a n, Descends all n a q ∧ p a = true ∧ level = top + n
  bounded : ∀ q ∈ done, ∀ a n, Descends all n a q → p a = true →
    ∃ level, gone.lookup q.id = some level ∧ top + n ≤ level

namespace Levels

variable {p : Row → Bool} {top : Nat} {all done rest : List Row} {gone : List (Nat × Nat)}
  {x : Row} {level : Nat}

theorem nil (p : Row → Bool) (top : Nat) (all : List Row) : Levels p top all [] [] where
  reached := by
    intro id level h
    cases h
  bounded := by
    intro q hq
    cases hq

/-- The pass gives the next row a level that it has. -/
theorem fallLevel_reached (h : Levels p top all done gone) (hall : all = done ++ x :: rest)
    (hx : Store.fallLevel? p top gone x = some level) :
    ∃ a n, Descends all n a x ∧ p a = true ∧ level = top + n := by
  have hmem : x ∈ all := by simp [hall]
  rw [Store.fallLevel?] at hx
  split at hx
  · rename_i above habove
    obtain ⟨id, hparent, hlookup⟩ := Option.bind_eq_some_iff.mp habove
    obtain ⟨q, -, rfl, a, n, hdescends, ha, rfl⟩ := h.reached id above hlookup
    cases hx
    exact ⟨a, n + 1, hdescends.step hmem hparent, ha, by omega⟩
  · split at hx
    · rename_i hp
      cases hx
      exact ⟨x, 0, .self hmem, hp, rfl⟩
    · cases hx

/-- The pass gives the next row the greatest level that it has. -/
theorem fallLevel_bounded (h : Levels p top all done gone) (hall : all = done ++ x :: rest)
    (ho : Ordered all) {a : Row} {n : Nat} (hdescends : Descends all n a x) (ha : p a = true) :
    ∃ level, Store.fallLevel? p top gone x = some level ∧ top + n ≤ level := by
  rw [Store.fallLevel?]
  cases hdescends with
  | self _ =>
      split
      · rename_i above habove
        -- a row above has a level of its own
        obtain ⟨id, hparent, hlookup⟩ := Option.bind_eq_some_iff.mp habove
        obtain ⟨q, -, -, b, m, -, -, rfl⟩ := h.reached id above hlookup
        exact ⟨_, rfl, by omega⟩
      · rw [if_pos ha]
        exact ⟨top, rfl, Nat.le_refl _⟩
  | @step m _ q _ hq hr hparent =>
      have hdone : q ∈ done := by
        have hmem := hq.atOrBelow.mem
        rw [hall] at ho hmem
        exact ho.mem_left_of_lt hmem (ho.parents x (by simp) _ hparent)
      obtain ⟨above, hlookup, hle⟩ := h.bounded q hdone a m hq ha
      rw [hparent, Option.bind_some, hlookup]
      exact ⟨above + 1, rfl, by omega⟩

/-- The pass over a row that stays. -/
theorem keep (h : Levels p top all done gone) (hall : all = done ++ x :: rest)
    (ho : Ordered all) (hx : Store.fallLevel? p top gone x = none) :
    Levels p top all (done ++ [x]) gone where
  reached := by
    intro id level hlookup
    obtain ⟨q, hq, hlevel⟩ := h.reached id level hlookup
    exact ⟨q, List.mem_append_left _ hq, hlevel⟩
  bounded := by
    intro q hq a n hdescends ha
    rcases List.mem_append.mp hq with hq | hq
    · exact h.bounded q hq a n hdescends ha
    · rw [List.mem_singleton.mp hq] at hdescends
      obtain ⟨level, hlevel, -⟩ := h.fallLevel_bounded hall ho hdescends ha
      rw [hx] at hlevel
      cases hlevel

/-- The pass over a row that goes. -/
theorem fall (h : Levels p top all done gone) (hall : all = done ++ x :: rest)
    (ho : Ordered all) (hx : Store.fallLevel? p top gone x = some level) :
    Levels p top all (done ++ [x]) ((x.id, level) :: gone) where
  reached := by
    intro id level' hlookup
    rw [List.lookup_cons] at hlookup
    split at hlookup
    · rename_i hid
      cases hlookup
      exact ⟨x, by simp, (beq_iff_eq.mp hid).symm, h.fallLevel_reached hall hx⟩
    · obtain ⟨q, hq, hlevel⟩ := h.reached id level' hlookup
      exact ⟨q, List.mem_append_left _ hq, hlevel⟩
  bounded := by
    intro q hq a n hdescends ha
    rw [List.lookup_cons]
    by_cases hid : q.id = x.id
    · have hmem : q ∈ all := hdescends.atOrBelow.mem
      have hsame : q = x := ho.eq_of_id hmem (by simp [hall]) hid
      subst hsame
      obtain ⟨level', hlevel, hle⟩ := h.fallLevel_bounded hall ho hdescends ha
      rw [hx] at hlevel
      cases hlevel
      exact ⟨level, by simp, hle⟩
    · have hold : q ∈ done := by
        rcases List.mem_append.mp hq with hq | hq
        · exact hq
        · exact absurd (congrArg Row.id (List.mem_singleton.mp hq)) hid
      obtain ⟨level', hlevel, hle⟩ := h.bounded q hold a n hdescends ha
      exact ⟨level', by rw [beq_false_of_ne hid, hlevel], hle⟩

end Levels

namespace Store

private theorem sinks_iff_of_levels {p : Row → Bool} {top : Nat} {all done rest : List Row}
    {gone : List (Nat × Nat)} (hall : all = done ++ rest) (ho : Ordered all)
    (h : Levels p top all done gone) :
    sinks p top gone rest = true ↔
      ∃ r ∈ rest, ∃ a n, Descends all n a r ∧ p a = true ∧ maxCascade ≤ top + n := by
  induction rest generalizing done gone with
  | nil => simp [sinks]
  | cons x rest ih =>
      have hall' : all = (done ++ [x]) ++ rest := by simp [hall]
      rw [sinks, List.exists_mem_cons_iff]
      cases hx : fallLevel? p top gone x with
      | none =>
          simp only
          rw [ih hall' (h.keep hall ho hx)]
          refine (or_iff_right ?_).symm
          rintro ⟨a, n, hdescends, ha, -⟩
          obtain ⟨level, hlevel, -⟩ := h.fallLevel_bounded hall ho hdescends ha
          rw [hx] at hlevel
          cases hlevel
      | some level =>
          simp only [Bool.or_eq_true, decide_eq_true_eq]
          rw [ih hall' (h.fall hall ho hx)]
          apply or_congr_left
          constructor
          · intro hle
            obtain ⟨a, n, hdescends, ha, rfl⟩ := h.fallLevel_reached hall hx
            exact ⟨a, n, hdescends, ha, hle⟩
          · rintro ⟨a, n, hdescends, ha, hle⟩
            obtain ⟨level', hlevel, hle'⟩ := h.fallLevel_bounded hall ho hdescends ha
            rw [hx] at hlevel
            cases hlevel
            exact hle.trans hle'

/-- The engine refuses a removal exactly if some row is so many levels below one of the
rows to be removed. -/
theorem goesTooDeep_iff {s : Store} (h : Ordered s.rows) {p : Row → Bool} {top : Nat} :
    s.goesTooDeep p top = true ↔
      ∃ a r n, Descends s.rows n a r ∧ p a = true ∧ maxCascade ≤ top + n := by
  rw [goesTooDeep, sinks_iff_of_levels (List.nil_append s.rows).symm h (.nil p top s.rows)]
  constructor
  · rintro ⟨r, -, a, n, hdeep⟩
    exact ⟨a, r, n, hdeep⟩
  · rintro ⟨a, r, n, hdescends, hdeep⟩
    exact ⟨r, hdescends.atOrBelow.mem, a, n, hdescends, hdeep⟩

end Store

end DataTree
