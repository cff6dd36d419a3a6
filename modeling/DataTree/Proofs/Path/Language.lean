import DataTree.Proofs.Path.Canonical
import Mathlib.Data.Set.List

/-!
# The language of paths

Which texts denote a query, and when two of them denote the same one.

The grammar of `ExpressionAs` lets every step carry any predicates.  A path
is *admissible* if all steps but the last of its main part hold keys only,
and the last one holds a leaf text of its parent or filters, at most one of
each kind and in any order.  The texts that denote a query are the spellings
of the admissible paths.  Each query has one canonical text, which denotes
it, so that canonical texts decide whether two queries are equal.

## Main definitions

* `Expression.Admissible` — a written path that keeps the rules.
* `IsPath` — the language: spellings of admissible paths.
* `Query.report` — everything a query can be asked for.

## Main results

* `parses_iff_isPath` — a text denotes a query exactly if it is in the
  language.
* `expressionAs_unique` — no text spells two paths.
* `normalized_denotes` — the canonical text of a query denotes it, and two
  queries are equal exactly if their canonical texts are.
-/

namespace DataTree.Path

/-! ## Steps that hold keys -/

/-- Conditions that compare by `=` and are joined by `and` alone. -/
def ConditionGroup.IsKeys (g : ConditionGroup) : Prop :=
  g.first.comparison = .equal
    ∧ ∀ joined ∈ g.rest, joined.1 = .and ∧ joined.2.comparison = .equal

/-- A predicate that only picks list elements by their keys. -/
def Predicate.IsKeys : Predicate → Prop
  | .conditions g => g.IsKeys
  | .text _ | .contains _ => False

/-- A step whose predicates, however many, are keys. -/
def WrittenStep.KeysOnly (s : WrittenStep) : Prop := ∀ p ∈ s.predicates, p.IsKeys

/-- Elements that all have a preimage are the image of a list. -/
theorem forall_eq_map_iff {α β : Type} {f : α → β} {bs : List β} :
    (∀ b ∈ bs, ∃ a, f a = b) ↔ ∃ as : List α, as.map f = bs := by
  have hrange := Set.range_list_map f
  exact (Set.ext_iff.mp hrange bs).symm

theorem ConditionGroup.isKeys_iff {g : ConditionGroup} :
    g.IsKeys ↔ ∃ keys : KeyGroup, keys.toConditions = g := by
  constructor
  · rintro ⟨hfirst, hrest⟩
    obtain ⟨⟨leaf, comparison, value⟩, rest⟩ := g
    obtain rfl : comparison = .equal := hfirst
    have himage : ∀ joined ∈ rest, ∃ k : Key, (Connective.and, k.toCondition) = joined := by
      rintro ⟨word, ⟨leaf', comparison', value'⟩⟩ hmem
      obtain ⟨rfl, rfl⟩ := hrest _ hmem
      exact ⟨⟨leaf', value'⟩, rfl⟩
    obtain ⟨keys, rfl⟩ := forall_eq_map_iff.mp himage
    exact ⟨⟨⟨leaf, value⟩, keys⟩, rfl⟩
  · rintro ⟨keys, rfl⟩
    refine ⟨rfl, ?_⟩
    intro joined hmem
    obtain ⟨k, -, rfl⟩ := List.mem_map.mp hmem
    exact ⟨rfl, rfl⟩

theorem Predicate.isKeys_iff {p : Predicate} :
    p.IsKeys ↔ ∃ keys : KeyGroup, Predicate.conditions keys.toConditions = p := by
  cases p with
  | conditions g =>
      simp only [Predicate.IsKeys, ConditionGroup.isKeys_iff, Predicate.conditions.injEq]
  | text => simp [Predicate.IsKeys]
  | contains => simp [Predicate.IsKeys]

/-- A step holds keys only exactly if it has a checked form. -/
theorem WrittenStep.keysOnly_iff {s : WrittenStep} :
    s.KeysOnly ↔ ∃ step : Step, step.written = s := by
  obtain ⟨name, predicates⟩ := s
  unfold WrittenStep.KeysOnly
  simp only [Predicate.isKeys_iff, forall_eq_map_iff]
  constructor
  · rintro ⟨keys, rfl⟩
    exact ⟨⟨name, keys⟩, rfl⟩
  · rintro ⟨step, hstep⟩
    cases hstep
    exact ⟨step.keys, rfl⟩

theorem forall_keysOnly_iff {steps : List WrittenStep} :
    (∀ s ∈ steps, s.KeysOnly) ↔ ∃ checked : List Step, checked.map Step.written = steps := by
  simp only [WrittenStep.keysOnly_iff, forall_eq_map_iff]

theorem Trail.forall_keysOnly_iff {t : Trail WrittenStep} :
    (∀ s ∈ t.toList, s.KeysOnly) ↔ ∃ u : Trail Step, u.map Step.written = t := by
  obtain ⟨parents, last⟩ := t
  rw [Trail.toList, List.forall_mem_append, Path.forall_keysOnly_iff, List.forall_mem_singleton,
    WrittenStep.keysOnly_iff]
  constructor
  · rintro ⟨⟨steps, rfl⟩, step, rfl⟩
    exact ⟨⟨steps, step⟩, rfl⟩
  · rintro ⟨u, hu⟩
    cases hu
    exact ⟨⟨u.parents, rfl⟩, u.last, rfl⟩

/-! ## The last step -/

/-- At most one condition group and at most one `contains()`, in either
order. -/
def AreFilters (ps : List Predicate) : Prop :=
  ∃ conditions contains, ps.Perm
    ((Option.map Predicate.conditions conditions).toList
      ++ (Option.map Predicate.contains contains).toList)

/-- Two elements have two orders. -/
theorem perm_pair_iff {α : Type} {xs : List α} {a b : α} :
    xs.Perm [a, b] ↔ xs = [a, b] ∨ xs = [b, a] := by
  constructor
  · intro h
    have hlen := h.length_eq
    match xs, hlen with
    | [x, y], _ =>
      rcases (by simpa using h.mem_iff (a := x) : x = a ∨ x = b) with rfl | rfl
      · left
        simpa using h
      · right
        have hswap : [x, y].Perm [x, a] := h.trans (List.Perm.swap _ _ _)
        simpa using hswap
  · rintro (rfl | rfl)
    · exact List.Perm.refl _
    · exact List.Perm.swap _ _ _

/-- The filters of a step can be collected exactly if there are not too many
of them. -/
theorem collects_iff {ps : List Predicate} :
    (∃ selection, collectFilters none none ps = .ok selection) ↔ AreFilters ps := by
  constructor
  · rintro ⟨selection, h⟩
    obtain ⟨conditions, contains, -, hconditions, hcontains⟩ := collectFilters_eq_ok h
    refine ⟨conditions, contains, ?_⟩
    rw [← hconditions, ← hcontains]
    simpa using (List.filter_append_perm Predicate.isConditions ps).symm
  · rintro ⟨conditions, contains, h⟩
    cases conditions with
    | none =>
        cases contains with
        | none => exact ⟨_, by rw [List.perm_nil.mp h]; rfl⟩
        | some c => exact ⟨_, by rw [List.perm_singleton.mp h]; rfl⟩
    | some g =>
        cases contains with
        | none => exact ⟨_, by rw [List.perm_singleton.mp h]; rfl⟩
        | some c =>
            rcases perm_pair_iff.mp h with rfl | rfl
            · exact ⟨_, rfl⟩
            · exact ⟨_, rfl⟩

theorem AreFilters.any_isText {ps : List Predicate} (h : AreFilters ps) :
    ps.any Predicate.isText = false := by
  obtain ⟨conditions, contains, hperm⟩ := h
  rw [hperm.any_eq]
  cases conditions <;> cases contains <;> rfl

/-! ## Admissible paths -/

/-- A written path that keeps the rules. -/
structure Expression.Admissible (e : Expression) : Prop where
  /-- Steps before the last hold keys only. -/
  parents : ∀ s ∈ e.steps.parents, s.KeysOnly
  /-- So do all steps of the ancestor axis. -/
  axis : ∀ t, e.ancestor = some t → ∀ s ∈ t.toList, s.KeysOnly
  /-- The last step holds filters, or it is a leaf of the step before it
  and holds its text. -/
  last : AreFilters e.steps.last.predicates
    ∨ e.steps.parents ≠ [] ∧ ∃ value, e.steps.last.predicates = [.text value]

theorem axis_checks_iff {axis : Option (Trail WrittenStep)} :
    (∃ checked, checkedAxis axis = .ok checked)
      ↔ ∀ t, axis = some t → ∀ s ∈ t.toList, s.KeysOnly := by
  simp only [checkedAxis_eq_ok_iff, Trail.forall_keysOnly_iff]
  cases axis with
  | none => simp
  | some t =>
      constructor
      · rintro ⟨checked, h⟩ t' ht'
        cases ht'
        obtain ⟨u, -, hu⟩ := Option.map_eq_some_iff.mp h.symm
        exact ⟨u, hu⟩
      · intro h
        obtain ⟨u, hu⟩ := h t rfl
        exact ⟨some u, by simp [hu]⟩

/-- The filtered reading of a path succeeds if its filters do and the steps
before the last hold keys. -/
theorem filteredQuery_isOk_iff {e : Expression} {axis : Option (Trail Step)} :
    (∃ q, e.filteredQuery axis = .ok q)
      ↔ AreFilters e.steps.last.predicates ∧ ∀ s ∈ e.steps.parents, s.KeysOnly := by
  rw [← collects_iff, forall_keysOnly_iff]
  constructor
  · rintro ⟨q, h⟩
    obtain ⟨selection, hselection, h⟩ := bind_eq_ok_iff.mp h
    obtain ⟨steps, hsteps, -⟩ := bind_eq_ok_iff.mp h
    exact ⟨⟨selection, hselection⟩, steps, (mapM_toStep_eq_ok_iff.mp hsteps).symm⟩
  · rintro ⟨⟨selection, hselection⟩, steps, hsteps⟩
    refine ⟨⟨e.anchor, steps, e.steps.last.name, selection, axis⟩,
      bind_eq_ok_iff.mpr ⟨selection, hselection, ?_⟩⟩
    exact bind_eq_ok_iff.mpr ⟨steps, mapM_toStep_eq_ok_iff.mpr hsteps.symm, rfl⟩

/-- The leaf reading of a path succeeds if its last step holds one text and
nothing else, and there are steps before it that hold keys. -/
theorem leafTextQuery_isOk_iff {e : Expression} {axis : Option (Trail Step)} :
    (∃ q, e.leafTextQuery axis = .ok q)
      ↔ (e.steps.parents ≠ [] ∧ ∃ value, e.steps.last.predicates = [.text value])
        ∧ ∀ s ∈ e.steps.parents, s.KeysOnly := by
  constructor
  · rintro ⟨q, h⟩
    unfold Expression.leafTextQuery at h
    split at h
    · rename_i value hlast
      split at h
      · cases h
      · rename_i owner howner
        obtain ⟨steps, hsteps, h⟩ := bind_eq_ok_iff.mp h
        obtain ⟨target, htarget, -⟩ := bind_eq_ok_iff.mp h
        have hkeys : ∀ s ∈ owner.toList, s.KeysOnly := by
          refine Trail.forall_keysOnly_iff.mpr ⟨⟨steps, target⟩, ?_⟩
          rw [Trail.map, ← mapM_toStep_eq_ok_iff.mp hsteps, ← toStep_eq_ok_iff.mp htarget]
        rw [Trail.ofList?_eq_some howner]
        exact ⟨⟨by simp [Trail.toList], value, hlast⟩, hkeys⟩
    · cases h
  · rintro ⟨⟨hne, value, hlast⟩, hkeys⟩
    obtain ⟨steps, hsteps⟩ := forall_keysOnly_iff.mp hkeys
    rcases List.eq_nil_or_concat steps with rfl | ⟨init, target, rfl⟩
    · exact absurd hsteps.symm hne
    · rw [List.concat_eq_append] at hsteps
      unfold Expression.leafTextQuery
      rw [← hsteps, List.map_append, List.map_singleton, Trail.ofList?_append_singleton, hlast]
      refine ⟨⟨e.anchor, init, target.name,
        .leafText target.keys ⟨e.steps.last.name, value⟩, axis⟩,
        bind_eq_ok_iff.mpr ⟨init, mapM_toStep_eq_ok_iff.mpr rfl, ?_⟩⟩
      exact bind_eq_ok_iff.mpr ⟨target, toStep_eq_ok_iff.mpr rfl, rfl⟩

/-- A written path denotes a query exactly if it is admissible. -/
theorem denotes_iff_admissible {e : Expression} :
    (∃ q, e.toQuery = .ok q) ↔ e.Admissible := by
  constructor
  · rintro ⟨q, h⟩
    obtain ⟨axis, haxis, h⟩ := toQuery_eq_ok_iff.mp h
    have hancestor := axis_checks_iff.mp ⟨axis, haxis⟩
    split at h
    · obtain ⟨hlast, hparents⟩ := leafTextQuery_isOk_iff.mp ⟨q, h⟩
      exact ⟨hparents, hancestor, .inr hlast⟩
    · obtain ⟨hlast, hparents⟩ := filteredQuery_isOk_iff.mp ⟨q, h⟩
      exact ⟨hparents, hancestor, .inl hlast⟩
  · rintro ⟨hparents, hancestor, hlast⟩
    obtain ⟨axis, haxis⟩ := axis_checks_iff.mpr hancestor
    have hsome : ∃ q, (if e.steps.last.predicates.any Predicate.isText then e.leafTextQuery axis
        else e.filteredQuery axis) = .ok q := by
      rcases hlast with hfilters | ⟨hne, value, hvalue⟩
      · rw [hfilters.any_isText]
        exact filteredQuery_isOk_iff.mpr ⟨hfilters, hparents⟩
      · rw [if_pos (by simp [hvalue, Predicate.isText])]
        exact leafTextQuery_isOk_iff.mpr ⟨⟨hne, value, hvalue⟩, hparents⟩
    obtain ⟨q, hq⟩ := hsome
    exact ⟨q, toQuery_eq_ok_iff.mpr ⟨axis, haxis, hq⟩⟩

/-! ## The language -/

/-- The language of paths: the spellings of the admissible ones. -/
def IsPath (cs : List Char) : Prop := ∃ e : Expression, ExpressionAs e cs ∧ e.Admissible

/-- No text spells two paths. -/
theorem expressionAs_unique {e e' : Expression} {cs : List Char} (h : ExpressionAs e cs)
    (h' : ExpressionAs e' cs) : e = e' := by
  have hread := read_eq_ok_iff.mpr h
  rw [read_eq_ok_iff.mpr h'] at hread
  exact (Except.ok.inj hread).symm

/-- A text denotes a query exactly if it is in the language. -/
theorem parses_iff_isPath {path : String} :
    (∃ q, Query.parse path = .ok q) ↔ IsPath path.toList := by
  unfold IsPath
  simp only [parse_eq_ok_iff, ← read_eq_ok_iff, ← denotes_iff_admissible]
  constructor
  · rintro ⟨q, e, hread, hquery⟩
    exact ⟨e, hread, q, hquery⟩
  · rintro ⟨e, hread, q, hquery⟩
    exact ⟨q, e, hread, hquery⟩

/-! ## Canonical texts -/

/-- Everything a query can be asked for. -/
structure Query.Report where
  anchor : Anchor
  address : String
  normalized : String
  parentAddress : String
  descendantName : Option String
  conditions : List Condition
  connectives : List Connective
  ancestorName : Option String
  leafText : Option LeafText
  contains : Option LeafText
  deriving DecidableEq, Repr

def ConditionGroup.toList (g : ConditionGroup) : List Condition :=
  g.first :: g.rest.map Prod.snd

def ConditionGroup.connectives (g : ConditionGroup) : List Connective := g.rest.map Prod.fst

def Query.report (q : Query) : Query.Report where
  anchor := q.anchor
  address := q.address
  normalized := q.normalized
  parentAddress := q.parentAddress
  descendantName := q.descendantName
  conditions := q.conditions.elim [] ConditionGroup.toList
  connectives := q.conditions.elim [] ConditionGroup.connectives
  ancestorName := q.ancestorName
  leafText := q.leafText
  contains := q.contains

theorem normalize_of_parse {path : String} {q : Query} (h : Query.parse path = .ok q) :
    normalize path = .ok q.normalized := by
  rw [normalize, isRoot_of_parse h, h]
  rfl

/-- Queries that were read are equal if their canonical texts are. -/
theorem normalized_injective {path other : String} {q q' : Query}
    (h : Query.parse path = .ok q) (h' : Query.parse other = .ok q')
    (heq : q.normalized = q'.normalized) : q = q' := by
  have hback := parse_normalized h
  rw [heq, parse_normalized h'] at hback
  exact (Except.ok.inj hback).symm

/-- The canonical text of a query denotes that query, whence normalizing a
canonical text changes nothing, and two texts have the same canonical text
exactly if they denote equal queries.  Queries are equal exactly if they
report the same. -/
theorem normalized_denotes {path : String} {q : Query} (h : Query.parse path = .ok q) :
    Query.parse q.normalized = .ok q
      ∧ normalize path = .ok q.normalized
      ∧ (∀ p target, normalize p = .ok target → normalize target = .ok target)
      ∧ ∀ other q', Query.parse other = .ok q' →
        (q.normalized = q'.normalized ↔ q = q') ∧ (q = q' ↔ q.report = q'.report) := by
  refine ⟨parse_normalized h, normalize_of_parse h, fun _ _ => normalize_normalize, ?_⟩
  intro other q' h'
  refine ⟨⟨normalized_injective h h', congrArg Query.normalized⟩,
    congrArg Query.report, ?_⟩
  intro hreport
  exact normalized_injective h h' (congrArg Query.Report.normalized hreport)

/-- Blanks, a signed integer with a leading zero, double quotes and the other
order of the filters: all of it is gone from the canonical text, which
denotes the same query. -/
theorem normalized_denotes_of_respelled :
    ∃ q, Query.parse "//b[ contains(@t , \"x\") ][@p > +07]/ancestor::c" = .ok q
      ∧ q.normalized = "//b[@p>7][contains(@t,'x')]/ancestor::c"
      ∧ Query.parse q.normalized = .ok q := by
  have h : Query.parse "//b[ contains(@t , \"x\") ][@p > +07]/ancestor::c"
      = .ok ⟨.descendant, [], "b",
        .filtered (some ⟨⟨"p", .greater, .integer 7⟩, []⟩) (some ⟨"t", "x"⟩),
        some ⟨[], ⟨"c", []⟩⟩⟩ := by decide +kernel
  exact ⟨_, h, by decide +kernel, (normalized_denotes h).1⟩

end DataTree.Path
