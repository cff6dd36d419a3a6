import DataTree.Proofs.Path.Matching

/-!
# Other filters on the last step

What a query asks of the leaves stands in the predicates of its last step.  With others in
their place it is a query again: each of them is read for itself, so its text denotes it as
soon as each of them can be written.  A condition that can be written can be written any
number of times.

## Main definitions

* `Query.filteredBy` — a query with other filters on its last step.
* `Query.repeating` — a query that asks for one condition so many times more.

## Main results

* `parse_filteredBy`, `parse_repeating` — the texts of these queries denote them.
-/

namespace DataTree.Path

/-! ## Parts of a text -/

theorem conditionAs_of_predicateAs {g : ConditionGroup} {w : List Char}
    (h : PredicateAs (.conditions g) w) :
    ∀ c ∈ g.first :: g.rest.map Prod.snd, ∃ v, ConditionAs c v := by
  have hjoined : ∀ {more : List (Connective × Condition)} {t : List Char}, JoinedAs more t →
      ∀ c ∈ more.map Prod.snd, ∃ v, ConditionAs c v := by
    intro more t hmore
    induction hmore with
    | nil => exact fun c hc => absurd hc List.not_mem_nil
    | cons _ _ hc _ ih => exact List.forall_mem_cons.mpr ⟨⟨_, hc⟩, ih⟩
  obtain ⟨_, _, _, hbody, -⟩ := h
  cases hbody with
  | conditions hc hmore => exact List.forall_mem_cons.mpr ⟨⟨_, hc⟩, hjoined hmore⟩

theorem stepsAs_last {t : Trail WrittenStep} {w v : List Char} (h : StepsAs t w)
    {s : WrittenStep} (hs : StepAs s v) : ∃ w', StepsAs ⟨t.parents, s⟩ w' := by
  induction h with
  | last _ => exact ⟨v, .last hs⟩
  | cons hstep _ ih =>
      obtain ⟨w', hw'⟩ := ih
      exact ⟨_, .cons hstep hw'⟩

/-! ## Conditions of a query -/

/-- The predicates of the last step of a query are spelled in its text. -/
theorem predicateAs_of_parse {path : String} {q : Query} (hpath : Query.parse path = .ok q) :
    ∀ p ∈ q.writtenSteps.last.predicates, PredicateAs p p.chars := by
  obtain ⟨steps, rest, hsteps, -, -⟩ := spelled_of_parse hpath
  have hsteps : StepsAs q.writtenSteps steps := hsteps
  obtain ⟨_, -, hpredicates, -⟩ := stepAs_of_stepsAs hsteps _ (List.mem_append_right _
    (List.mem_singleton.mpr rfl))
  exact predicatesAs_iff.mp ⟨_, hpredicates⟩

theorem Query.selection_of_conditions {q : Query} {g : ConditionGroup}
    (h : q.conditions = some g) : q.selection = .filtered (some g) q.contains := by
  obtain ⟨anchor, parents, name, selection, ancestor⟩ := q
  cases selection with
  | leafText keys wanted => cases h
  | filtered conditions contains =>
      obtain rfl : conditions = some g := h
      rfl

section

variable {q : Query} {g : ConditionGroup} (hg : q.conditions = some g)

include hg

theorem Query.leafText_of_conditions : q.leafText = none := by
  rw [Query.leafText, Query.selection_of_conditions hg]

theorem Query.writtenSteps_of_conditions : q.writtenSteps
    = ⟨q.parents.map Step.written,
      ⟨q.name, .conditions g :: (q.contains.map Predicate.contains).toList⟩⟩ := by
  rw [Query.writtenSteps, Query.selection_of_conditions hg]
  rfl

theorem exists_predicateAs {path : String} (hpath : Query.parse path = .ok q) :
    ∃ w, PredicateAs (.conditions g) w := by
  refine ⟨_, predicateAs_of_parse hpath _ ?_⟩
  rw [Query.writtenSteps_of_conditions hg]
  exact List.mem_cons_self

end

/-! ## Filters -/

/-- A query with other filters on its last step. -/
def Query.filteredBy (q : Query) (conditions : Option ConditionGroup)
    (contains : Option LeafText) : Query :=
  { q with selection := .filtered conditions contains }

/-- The text of a query with other filters that can be spelled denotes it. -/
theorem parse_filteredBy {path : String} {q : Query} (hpath : Query.parse path = .ok q)
    (htext : q.leafText = none) {conditions : Option ConditionGroup} {contains : Option LeafText}
    (hconditions : ∀ g ∈ conditions, ∃ w, PredicateAs (.conditions g) w)
    (hcontains : ∀ t ∈ contains, ∃ w, PredicateAs (.contains t) w) :
    Query.parse (q.filteredBy conditions contains).normalized
      = .ok (q.filteredBy conditions contains) := by
  obtain ⟨steps, rest, hsteps, -, haxis⟩ := spelled_of_parse hpath
  obtain ⟨hparents, hlastName⟩ : q.writtenSteps.parents = q.parents.map Step.written
      ∧ q.writtenSteps.last.name = q.name := by
    obtain ⟨anchor, parents, name, selection, ancestor⟩ := q
    cases selection with
    | leafText keys wanted => cases htext
    | filtered conditions contains => exact ⟨rfl, rfl⟩
  have hsteps : StepsAs q.writtenSteps steps := hsteps
  obtain ⟨_, hname, -, -⟩ := stepAs_of_stepsAs hsteps _ (List.mem_append_right _
    (List.mem_singleton.mpr rfl))
  rw [hlastName] at hname
  have hall : ∀ p ∈ (q.filteredBy conditions contains).writtenSteps.last.predicates,
      PredicateAs p p.chars := by
    intro p hp
    rcases List.mem_append.mp hp with hp | hp
    · obtain ⟨g, hg, rfl⟩ := Option.map_eq_some_iff.mp (Option.mem_toList.mp hp)
      exact predicateAs_chars (hconditions g hg).choose_spec
    · obtain ⟨t, ht, rfl⟩ := Option.map_eq_some_iff.mp (Option.mem_toList.mp hp)
      exact predicateAs_chars (hcontains t ht).choose_spec
  obtain ⟨_, hps⟩ := predicatesAs_iff.mpr hall
  have hlast : StepAs (q.filteredBy conditions contains).writtenSteps.last _ :=
    ⟨_, hname, hps, rfl⟩
  obtain ⟨steps', hsteps'⟩ := stepsAs_last hsteps hlast
  rw [hparents] at hsteps'
  exact parse_of_spelled (w := q.anchor.chars ++ (steps' ++ rest))
    ⟨steps', rest, hsteps', rfl, haxis⟩

/-! ## Repeated conditions -/

/-- A condition and so many times more the same. -/
def ConditionGroup.repeated (c : Condition) (more : Nat) : ConditionGroup :=
  ⟨c, List.replicate more (.and, c)⟩

/-- A query that asks for nothing of the leaves but a condition, and so many times more the
same. -/
def Query.repeating (q : Query) (c : Condition) (more : Nat) : Query :=
  q.filteredBy (some (.repeated c more)) none

theorem exists_joinedAs_replicate {c : Condition} {w : List Char} (hc : ConditionAs c w)
    (more : Nat) : ∃ t, JoinedAs (List.replicate more (.and, c)) t := by
  induction more with
  | zero => exact ⟨[], .nil blank_nil⟩
  | succ more ih =>
      obtain ⟨t, ht⟩ := ih
      exact ⟨_, .cons blank_nil blank_nil hc ht⟩

/-- The text of a query that repeats a condition denotes it, if it does so where the query asks
for the condition once. -/
theorem parse_repeating {path : String} {q : Query} {c : Condition}
    (hpath : Query.parse path = .ok (q.repeating c 0)) (more : Nat) :
    Query.parse (q.repeating c more).normalized = .ok (q.repeating c more) := by
  obtain ⟨w, hw⟩ := exists_predicateAs (g := .repeated c 0) rfl hpath
  obtain ⟨v, hc⟩ := conditionAs_of_predicateAs hw c List.mem_cons_self
  obtain ⟨t, ht⟩ := exists_joinedAs_replicate hc more
  refine parse_filteredBy (q := q.repeating c 0) hpath rfl (fun g hg => ?_) fun t ht => by cases ht
  obtain rfl := Option.mem_some_iff.mp hg
  exact ⟨_, [], _, blank_nil, .conditions hc ht, rfl⟩

end DataTree.Path
