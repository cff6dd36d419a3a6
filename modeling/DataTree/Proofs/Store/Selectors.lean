import DataTree.Proofs.Store.Statements

/-!
# Queries ready to run

A query is made ready to run unless one of its conditions orders by a quoted value.  Whether
the engine takes it then depends on how often it asks: one that asks for the same over and
over selects what it selects asking once, until it is refused.

## Main results

* `checkConditions_eq` — the first condition that orders by a quoted value is
  reported.
* `selector_of_forall`, `selector_repeating` — queries that can be made ready to run.
* `query_of_selector` — a query reads the nodes of the rows that it selects.
* `query_of_not_fits` — a statement that nests too deep reads nothing.
* `fits_repeating_iff` — how often a query may ask for the same.
* `pick_repeating` — the rows that it selects.
-/

namespace DataTree

open DataTree.Path

/-! ## Checking conditions -/

/-- The first condition that orders by a quoted value is reported. -/
theorem checkConditions_eq (conditions : List Condition) :
    checkConditions conditions
      = match conditions.find? Condition.isTextOrder with
        | none => .ok ()
        | some c => .error (.textComparison c.leaf c.comparison) := by
  induction conditions with
  | nil => rfl
  | cons c rest ih =>
      rw [checkConditions, List.find?_cons, ih]
      cases c.isTextOrder <;> rfl

theorem checkConditions_of_forall {conditions : List Condition}
    (h : ∀ c ∈ conditions, c.isTextOrder = false) : checkConditions conditions = .ok () := by
  rw [checkConditions_eq, List.find?_eq_none.mpr fun c hc => by simp [h c hc]]

/-- A query without an axis that orders by no quoted value selects by its own conditions. -/
theorem selector_of_forall {q : Query} (haxis : q.ancestor = none)
    (hquoted : ∀ c ∈ q.conditionList, c.isTextOrder = false) : q.selector = .ok ⟨q, none⟩ := by
  rw [Query.selector, checkConditions_of_forall hquoted, Query.ancestorQuery, Query.ancestorName,
    haxis]
  rfl

theorem readSelector_of_parse {path : String} {q : Query} (hpath : Query.parse path = .ok q) :
    readSelector path = q.selector.mapError .badPath := by
  rw [readSelector, hpath]
  rfl

theorem readSelector_of_selector {path : String} {q : Query} {selector : Selector}
    (hpath : Query.parse path = .ok q) (hselector : q.selector = .ok selector) :
    readSelector path = .ok selector := by
  rw [readSelector_of_parse hpath, hselector]
  rfl

/-! ## Queries of an owner -/

theorem query_of_parse {s : Store} {path : String} {q : Query} (hpath : Query.parse path = .ok q)
    (owner : Owner) (fetch : Fetch) :
    s.query owner path fetch
      = q.selector.mapError .badPath >>= fun selector =>
        s.select (.owner owner.id) selector >>= s.nodes fetch := by
  rw [Store.query, if_neg (by simp [isRoot_of_parse hpath]), readSelector_of_parse hpath]

/-- A query reads the nodes of the rows that it selects. -/
theorem query_of_selector {s : Store} {path : String} {q : Query} {selector : Selector}
    (hpath : Query.parse path = .ok q) (hselector : q.selector = .ok selector) (owner : Owner)
    (fetch : Fetch) :
    s.query owner path fetch = s.select (.owner owner.id) selector >>= s.nodes fetch := by
  rw [query_of_parse hpath, hselector]
  rfl

/-- It reads nothing if the engine refuses its statement, whatever is stored. -/
theorem query_of_not_fits {s : Store} {path : String} {q : Query} {selector : Selector}
    (hpath : Query.parse path = .ok q) (hselector : q.selector = .ok selector) {owner : Owner}
    (hdeep : selector.fits (.owner owner.id) = false) (fetch : Fetch) :
    s.query owner path fetch = .error (.engine .deepExpression) := by
  rw [query_of_selector hpath hselector, Store.select_of_not_fits s hdeep]
  rfl

/-! ## Repeated conditions -/

/-- A group that repeats a condition holds if the condition does. -/
theorem Path.ConditionGroup.holds_repeated (c : Condition) (more : Nat) (d : Document) :
    (repeated c more).holds d = c.holds d := by
  induction more with
  | zero => rfl
  | succ more ih =>
      show (List.replicate more (Connective.and, c)).foldl _ (c.holds d && c.holds d) = _
      rw [Bool.and_self]
      exact ih

section

variable (q : Query) (c : Condition) (more : Nat)

theorem conditionList_repeating :
    (q.repeating c more).conditionList = List.replicate (more + 1) c := by
  show c :: (List.replicate more (Connective.and, c)).map Prod.snd = _
  rw [List.map_replicate, List.replicate_succ]

theorem length_conditionList_repeating :
    (q.repeating c more).conditionList.length = more + 1 := by
  rw [conditionList_repeating, List.length_replicate]

variable {c} in
theorem isTextOrder_repeating (hc : c.isTextOrder = false) :
    ∀ c' ∈ (q.repeating c more).conditionList, c'.isTextOrder = false := by
  intro c' hc'
  rw [conditionList_repeating] at hc'
  rwa [List.eq_of_mem_replicate hc']

/-- Only the number of conditions counts, beside what the query asks for without them. -/
theorem fits_repeating_iff (scope : Scope) :
    let place := (q.filteredBy none none).rowShape scope
    (⟨q.repeating c more, none⟩ : Selector).fits scope = true
      ↔ max place.depth (c.shape.depth + more) + 1 + place.reach ≤ 1000 := by
  intro place
  have hgroup : (ConditionGroup.repeated c more).shape.depth = c.shape.depth + more := by
    rw [ConditionGroup.shape, Shape.depth_joined fun e he => ?_, List.length_map]
    · exact congrArg (c.shape.depth + ·) (List.length_replicate ..)
    · obtain ⟨joined, hjoined, rfl⟩ := List.mem_map.mp he
      rw [List.eq_of_mem_replicate hjoined]
      exact Nat.le_refl _
  have hrow : (q.repeating c more).rowShape scope
      = .both place (ConditionGroup.repeated c more).shape := q.rowShape_filteredBy scope _ none
  rw [fits_none_iff, hrow, Shape.depth, Shape.reach, hgroup, ConditionGroup.reach_eq,
    Nat.max_zero]

/-- What it selects does not depend on how often it asks. -/
theorem pick_repeating (s : Store) (scope : Scope) :
    s.pick scope ⟨q.repeating c more, none⟩ = s.pick scope ⟨q.repeating c 0, none⟩ := by
  have hadmits : (q.repeating c more).admits = (q.repeating c 0).admits := by
    funext d
    show (((some (ConditionGroup.repeated c more)).all fun g => g.holds d) && true && true)
      = (((some (ConditionGroup.repeated c 0)).all fun g => g.holds d) && true && true)
    rw [Option.all_some, Option.all_some, ConditionGroup.holds_repeated,
      ConditionGroup.holds_repeated]
  have hfilter : filterByLeaves (q.repeating c more) = filterByLeaves (q.repeating c 0) := by
    funext rows
    rw [filterByLeaves, filterByLeaves, hadmits]
    rfl
  show (filterByLeaves (q.repeating c more) _ >>= fun rows => pure rows)
    = (filterByLeaves (q.repeating c 0) _ >>= fun rows => pure rows)
  rw [hfilter]
  rfl

end

theorem selector_repeating {q : Query} {c : Condition} (haxis : q.ancestor = none)
    (hquoted : c.isTextOrder = false) (more : Nat) :
    (q.repeating c more).selector = .ok ⟨q.repeating c more, none⟩ :=
  selector_of_forall (q := q.repeating c more) haxis (isTextOrder_repeating q more hquoted)

end DataTree
