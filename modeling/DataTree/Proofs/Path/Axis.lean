import DataTree.Proofs.Path.Nesting

/-!
# Ancestor axes

A query with an ancestor axis names two sets of nodes: its matches, by the query
without the axis, and the nodes above them, by the target of the axis as a query of
its own at any depth.  The target is printed and read again for that.  Its steps hold
keys only, so all that its query asks of leaves are equalities; but a step may have
its keys in several brackets, and what a query asks of leaves stands in one.

## Main definitions

* `Query.withoutAxis` — a query without its ancestor axis.
* `targetQuery` — the query for the target of an axis, if there can be one.

## Main results

* `parse_withoutAxis` — the text of the query without the axis denotes it.
* `ancestorQuery_eq` — the text of the target denotes the query for it, if there can
  be one.
* `written_of_ancestorQuery` — the query of the target has the steps of the axis.
-/

namespace DataTree.Path

/-- A query without its ancestor axis. -/
def Query.withoutAxis (q : Query) : Query := { q with ancestor := none }

/-- The query for the nodes that the steps of an axis address, at any depth.  The keys
of the last step become its conditions, for which there is one bracket. -/
def targetQuery (t : Trail Step) : Except Fault Query :=
  match t.last.keys with
  | [] => .ok ⟨.descendant, t.parents, t.last.name, .filtered none none, none⟩
  | [keys] =>
    .ok ⟨.descendant, t.parents, t.last.name, .filtered (some keys.toConditions) none, none⟩
  | _ :: _ :: _ => .error .secondConditionGroup

/-- The steps of a target, put at any depth, denote the query for it. -/
theorem toQuery_target (t : Trail Step) :
    (⟨.descendant, t.map Step.written, none⟩ : Expression).toQuery = targetQuery t := by
  obtain ⟨parents, name, keys⟩ := t
  have hparents : (parents.map Step.written).mapM WrittenStep.toStep = .ok parents :=
    mapM_toStep_eq_ok_iff.mpr rfl
  have hfilters : (⟨.descendant, Trail.map Step.written ⟨parents, name, keys⟩, none⟩
      : Expression).toQuery = collectFilters none none
        (keys.map fun g => .conditions g.toConditions) >>= fun selection =>
          .ok ⟨.descendant, parents, name, selection, none⟩ := by
    have htext : (keys.map fun g => Predicate.conditions g.toConditions).any Predicate.isText
        = false := by
      simp [Predicate.isText]
    show (if (keys.map fun g => Predicate.conditions g.toConditions).any Predicate.isText
      then _ else Expression.filteredQuery _ none) = _
    rw [htext, if_neg Bool.false_ne_true, Expression.filteredQuery]
    refine bind_congr fun selection => ?_
    show (parents.map Step.written).mapM WrittenStep.toStep >>= _ = _
    rw [hparents]
    rfl
  rw [hfilters]
  cases keys with
  | nil => rfl
  | cons first more =>
      cases more with
      | nil => rfl
      | cons second rest => rfl

section

variable {path : String} {q : Query} (h : Query.parse path = .ok q)

include h

/-- The text of a query without its axis denotes it. -/
theorem parse_withoutAxis : Query.parse q.withoutAxis.normalized = .ok q.withoutAxis := by
  obtain ⟨steps, _, hsteps, -⟩ := spelled_of_parse h
  exact parse_of_spelled (w := q.anchor.chars ++ (steps ++ [])) ⟨steps, [], hsteps, rfl, rfl⟩

/-- The text of a target at any depth is read as its steps. -/
theorem read_target {t : Trail Step} (ht : q.ancestor = some t) :
    Expression.read ("//" ++ String.ofList (stepsChars t.toList)).toList
      = .ok ⟨.descendant, t.map Step.written, none⟩ := by
  obtain ⟨_, _, -, -, haxis⟩ := spelled_of_parse h
  rw [show q.written.ancestor = some (t.map Step.written) by simp [Query.written, ht]] at haxis
  obtain ⟨target, htarget, -⟩ := haxis
  refine read_eq_ok_iff.mpr ⟨_, [], stepsAs_chars htarget, ?_, rfl⟩
  rw [Trail.chars, Trail.toList_map, map_chars_written]
  simp [stepsChars, Anchor.chars]

/-- The text of a target denotes the query for it, if there can be one. -/
theorem ancestorQuery_eq {t : Trail Step} (ht : q.ancestor = some t) :
    q.ancestorQuery = some ((targetQuery t).mapError
      (.malformed ("//" ++ String.ofList (stepsChars t.toList)))) := by
  rw [Query.ancestorQuery, Query.ancestorName, ht, Option.map_some, Option.map_some,
    parse_of_read (read_target h ht), toQuery_target]

/-- The query for the target of an axis has the steps of the axis. -/
theorem written_of_ancestorQuery {a : Query} (ha : q.ancestorQuery = some (.ok a)) :
    ∃ t : Trail Step, q.ancestor = some t
      ∧ a.written = ⟨.descendant, t.map Step.written, none⟩ := by
  cases ht : q.ancestor with
  | none =>
      rw [Query.ancestorQuery, Query.ancestorName, ht] at ha
      cases ha
  | some t =>
      refine ⟨t, rfl, ?_⟩
      rw [ancestorQuery_eq h ht, Option.some.injEq, mapError_eq_ok_iff, ← toQuery_target] at ha
      rw [written_of_toQuery ha, Expression.arranged]
      show (⟨_, ⟨_, t.last.written.arranged⟩, _⟩ : Expression) = _
      rw [Step.arranged_written]
      rfl

end

/-! ## The query of the target -/

section

variable {a : Query} {t : Trail Step} (h : a.written = ⟨.descendant, t.map Step.written, none⟩)

include h

theorem exists_descendantName : ∃ name, a.descendantName = some name := by
  have hanchor : a.anchor = .descendant := congrArg Expression.anchor h
  rw [Query.descendantName, hanchor]
  exact ⟨_, rfl⟩

/-- All that the query of a target asks of leaves are equalities. -/
theorem selection_of_target : ∃ conditions, a.selection = .filtered conditions none
    ∧ ∀ g ∈ conditions, ∃ keys : KeyGroup, g = keys.toConditions := by
  have hlast : a.writtenSteps.last = t.last.written := congrArg (fun e => e.steps.last) h
  have hkeys : ∀ p ∈ a.writtenSteps.last.predicates, ∃ keys : KeyGroup,
      p = .conditions keys.toConditions := by
    intro p hp
    rw [hlast] at hp
    obtain ⟨keys, -, rfl⟩ := List.mem_map.mp hp
    exact ⟨keys, rfl⟩
  obtain ⟨anchor, parents, name, selection, ancestor⟩ := a
  cases selection with
  | leafText keys wanted =>
      obtain ⟨_, hwanted⟩ := hkeys (.text wanted.value) (List.mem_singleton.mpr rfl)
      cases hwanted
  | filtered conditions contains =>
      cases contains with
      | some c =>
          obtain ⟨_, hc⟩ := hkeys (.contains c) (by simp [Query.writtenSteps])
          cases hc
      | none =>
          refine ⟨conditions, rfl, fun g hg => ?_⟩
          obtain ⟨keys, hkeys⟩ := hkeys (.conditions g) (by simp_all [Query.writtenSteps])
          exact ⟨keys, Predicate.conditions.inj hkeys⟩

end

end DataTree.Path
