import DataTree.Proofs.Path.Grammar

/-!
# Canonical paths

The canonical text of a query spells a path of its own, the one in which the
predicates of the last step stand in a fixed order.  That path denotes the
query again, so canonical texts read back, and normalizing changes a
canonical text no more.

## Main definitions

* `Query.written` — the path whose canonical spelling is the text of a query.

## Main results

* `parse_normalized` — the canonical text of a query that was read denotes
  that query.
* `normalize_normalize` — a canonical path is its own canonical path.
-/

namespace DataTree.Path

open DataTree.Text

/-! ## The written form of a query -/

/-- A step with its keys as conditions. -/
def Step.written (s : Step) : WrittenStep :=
  ⟨s.name, s.keys.map fun g => .conditions g.toConditions⟩

def Trail.map {α β : Type} (f : α → β) (t : Trail α) : Trail β := ⟨t.parents.map f, f t.last⟩

@[simp] theorem Trail.toList_map {α β : Type} (f : α → β) (t : Trail α) :
    (t.map f).toList = t.toList.map f := by
  simp [Trail.map, Trail.toList]

/-- The steps of a query as written; a leaf text is a step of its own. -/
def Query.writtenSteps (q : Query) : Trail WrittenStep :=
  match q.selection with
  | .leafText keys wanted =>
    ⟨q.parents.map Step.written ++ [Step.written ⟨q.name, keys⟩],
      ⟨wanted.leaf, [.text wanted.value]⟩⟩
  | .filtered conditions contains =>
    ⟨q.parents.map Step.written,
      ⟨q.name, (conditions.map Predicate.conditions).toList
        ++ (contains.map Predicate.contains).toList⟩⟩

/-- The path that denotes a query and has its predicates in order. -/
def Query.written (q : Query) : Expression :=
  ⟨q.anchor, q.writtenSteps, q.ancestor.map fun t => t.map Step.written⟩

def Predicate.isConditions : Predicate → Bool
  | .conditions _ => true
  | _ => false

@[simp] theorem Predicate.isConditions_conditions (g : ConditionGroup) :
    (Predicate.conditions g).isConditions = true := rfl

@[simp] theorem Predicate.isConditions_contains (c : LeafText) :
    (Predicate.contains c).isConditions = false := rfl

@[simp] theorem Predicate.isConditions_text (v : String) :
    (Predicate.text v).isConditions = false := rfl

/-- The conditions of a step before its other predicates. -/
def WrittenStep.arranged (s : WrittenStep) : WrittenStep :=
  ⟨s.name, s.predicates.filter Predicate.isConditions
    ++ s.predicates.filter fun p => !p.isConditions⟩

/-- A path with the predicates of its last step in order. -/
def Expression.arranged (e : Expression) : Expression :=
  { e with steps := ⟨e.steps.parents, e.steps.last.arranged⟩ }

/-! ## Keys -/

theorem toKeys?_eq_some {g : ConditionGroup} {keys : KeyGroup} (h : g.toKeys? = some keys) :
    keys.toConditions = g := by
  have hkey : ∀ {c : Condition} {k : Key}, c.toKey? = some k → k.toCondition = c := by
    intro c k hc
    unfold Condition.toKey? at hc
    split at hc
    · rename_i hop
      cases hc
      obtain ⟨leaf, op, value⟩ := c
      subst hop
      rfl
    · cases hc
  have hrest : ∀ {rest : List (Connective × Condition)} {ks : List Key},
      rest.mapM joinedKey? = some ks →
        (ks.map fun k => (Connective.and, k.toCondition)) = rest := by
    intro rest
    induction rest with
    | nil =>
        intro ks hks
        simp at hks
        simp [hks]
    | cons joined rest ih =>
        intro ks hks
        obtain ⟨word, c⟩ := joined
        simp only [List.mapM_cons, Option.bind_eq_bind, Option.bind_eq_some_iff] at hks
        obtain ⟨k, hk, ks', hks', heq⟩ := hks
        cases heq
        unfold joinedKey? at hk
        split at hk
        · rename_i hand
          rw [List.map_cons, ih hks', hkey hk]
          simp only at hand
          rw [hand]
        · cases hk
  obtain ⟨first, rest⟩ := g
  unfold ConditionGroup.toKeys? at h
  split at h
  · rename_i k ks hk hks
    cases h
    rw [KeyGroup.toConditions, hkey hk, hrest hks]
  · cases h

theorem toKeys_eq_ok_iff {name : String} {p : Predicate} {keys : KeyGroup} :
    p.toKeys name = .ok keys ↔ p = .conditions keys.toConditions := by
  constructor
  · intro h
    cases p with
    | conditions g =>
        simp only [Predicate.toKeys] at h
        split at h
        · rename_i ks hks
          cases h
          rw [toKeys?_eq_some hks]
        · cases h
    | text => cases h
    | contains => cases h
  · rintro rfl
    simp [Predicate.toKeys, KeyGroup.toKeys?_toConditions]

/-- Elements that are computed one by one. -/
theorem mapM_eq_ok_iff {ε α β : Type} {f : α → Except ε β} {g : β → α}
    (hf : ∀ a b, f a = .ok b ↔ a = g b) {as : List α} {bs : List β} :
    as.mapM f = .ok bs ↔ as = bs.map g := by
  induction as generalizing bs with
  | nil =>
      cases bs with
      | nil => simp [pure, Except.pure]
      | cons b bs => simp [pure, Except.pure]
  | cons a as ih =>
      rw [List.mapM_cons, bind_eq_ok_iff]
      constructor
      · rintro ⟨b, hb, h⟩
        obtain ⟨bs', hbs, h⟩ := bind_eq_ok_iff.mp h
        cases h
        rw [List.map_cons, ← (hf a b).mp hb, ← ih.mp hbs]
      · intro h
        cases bs with
        | nil => cases h
        | cons b bs =>
            rw [List.map_cons, List.cons.injEq] at h
            exact ⟨b, (hf a b).mpr h.1, bind_eq_ok_iff.mpr ⟨bs, ih.mpr h.2, rfl⟩⟩

/-- A step that holds keys only is the written form of its checked form. -/
theorem toStep_eq_ok_iff {w : WrittenStep} {s : Step} : w.toStep = .ok s ↔ w = s.written := by
  obtain ⟨name, predicates⟩ := w
  unfold WrittenStep.toStep
  rw [map_eq_ok_iff]
  constructor
  · rintro ⟨keys, hkeys, rfl⟩
    rw [mapM_eq_ok_iff fun _ _ => toKeys_eq_ok_iff] at hkeys
    simp only at hkeys
    rw [hkeys]
    rfl
  · intro h
    cases h
    exact ⟨s.keys, (mapM_eq_ok_iff fun _ _ => toKeys_eq_ok_iff).mpr rfl, rfl⟩

theorem mapM_toStep_eq_ok_iff {ws : List WrittenStep} {steps : List Step} :
    ws.mapM WrittenStep.toStep = .ok steps ↔ ws = steps.map Step.written :=
  mapM_eq_ok_iff fun _ _ => toStep_eq_ok_iff

theorem ancestorSteps_eq_ok_iff {t : Trail WrittenStep} {u : Trail Step} :
    ancestorSteps t = .ok u ↔ t = u.map Step.written := by
  obtain ⟨parents, last⟩ := t
  unfold ancestorSteps
  constructor
  · intro h
    obtain ⟨ps, hps, h⟩ := bind_eq_ok_iff.mp h
    obtain ⟨s, hs, h⟩ := bind_eq_ok_iff.mp h
    cases h
    rw [mapM_toStep_eq_ok_iff] at hps
    rw [toStep_eq_ok_iff] at hs
    simp only at hps hs
    rw [hps, hs]
    rfl
  · intro h
    cases h
    refine bind_eq_ok_iff.mpr ⟨u.parents, mapM_toStep_eq_ok_iff.mpr rfl, ?_⟩
    exact bind_eq_ok_iff.mpr ⟨u.last, toStep_eq_ok_iff.mpr rfl, rfl⟩

/-! ## Filters -/

/-- The filters found are the predicates of the step, conditions first. -/
theorem collectFilters_eq_ok {conditions : Option ConditionGroup} {contains : Option LeafText}
    {ps : List Predicate} {selection : Selection}
    (h : collectFilters conditions contains ps = .ok selection) :
    ∃ conditions' contains', selection = .filtered conditions' contains'
      ∧ (conditions.map Predicate.conditions).toList ++ ps.filter Predicate.isConditions
        = (conditions'.map Predicate.conditions).toList
      ∧ (contains.map Predicate.contains).toList ++ (ps.filter fun p => !p.isConditions)
        = (contains'.map Predicate.contains).toList := by
  fun_induction collectFilters conditions contains ps with
  | case1 conditions contains =>
      cases h
      exact ⟨conditions, contains, rfl, by simp, by simp⟩
  | case2 contains g rest ih =>
      obtain ⟨c', k', hsel, hc, hk⟩ := ih h
      refine ⟨c', k', hsel, ?_, by simpa using hk⟩
      rw [List.filter_cons_of_pos (Predicate.isConditions_conditions g)]
      exact hc
  | case3 => cases h
  | case4 conditions c rest ih =>
      obtain ⟨c', k', hsel, hc, hk⟩ := ih h
      exact ⟨c', k', hsel, by simpa using hc, by simpa using hk⟩
  | case5 => cases h
  | case6 => cases h

theorem collectFilters_written (conditions : Option ConditionGroup)
    (contains : Option LeafText) :
    collectFilters none none ((conditions.map Predicate.conditions).toList
      ++ (contains.map Predicate.contains).toList) = .ok (.filtered conditions contains) := by
  cases conditions <;> cases contains <;> rfl

/-! ## Written queries -/

/-- The steps of an ancestor axis, if there is one. -/
def checkedAxis (axis : Option (Trail WrittenStep)) : Except Fault (Option (Trail Step)) :=
  match axis with
  | none => pure none
  | some t => (ancestorSteps t).map some

theorem checkedAxis_eq_ok_iff {axis : Option (Trail WrittenStep)} {steps : Option (Trail Step)} :
    checkedAxis axis = .ok steps ↔ axis = steps.map fun t => t.map Step.written := by
  cases axis with
  | none => cases steps <;> simp [checkedAxis, pure, Except.pure]
  | some t =>
      simp only [checkedAxis, map_eq_ok_iff, ancestorSteps_eq_ok_iff]
      cases steps with
      | none => simp
      | some u => simp [eq_comm]

theorem toQuery_eq_ok_iff {e : Expression} {q : Query} :
    e.toQuery = .ok q ↔ ∃ axis, checkedAxis e.ancestor = .ok axis
      ∧ (if e.steps.last.predicates.any Predicate.isText then e.leafTextQuery axis
        else e.filteredQuery axis) = .ok q := by
  obtain ⟨anchor, steps, ancestor⟩ := e
  cases ancestor with
  | none =>
      constructor
      · intro h
        exact ⟨none, rfl, h⟩
      · rintro ⟨axis, haxis, h⟩
        cases haxis
        exact h
  | some t => exact bind_eq_ok_iff

/-- The written form of a query denotes it. -/
theorem toQuery_written (q : Query) : q.written.toQuery = .ok q := by
  obtain ⟨anchor, parents, name, selection, ancestor⟩ := q
  refine toQuery_eq_ok_iff.mpr ⟨ancestor, checkedAxis_eq_ok_iff.mpr rfl, ?_⟩
  cases selection with
  | leafText keys wanted =>
      rw [if_pos (by simp [Query.written, Query.writtenSteps, Predicate.isText])]
      simp only [Expression.leafTextQuery, Query.written, Query.writtenSteps,
        Trail.ofList?_append_singleton]
      refine bind_eq_ok_iff.mpr ⟨parents, mapM_toStep_eq_ok_iff.mpr rfl, ?_⟩
      exact bind_eq_ok_iff.mpr ⟨⟨name, keys⟩, toStep_eq_ok_iff.mpr rfl, rfl⟩
  | filtered conditions contains =>
      have htext : ((conditions.map Predicate.conditions).toList
          ++ (contains.map Predicate.contains).toList).any Predicate.isText = false := by
        cases conditions <;> cases contains <;> rfl
      simp only [Query.written, Query.writtenSteps, htext, Bool.false_eq_true, if_false]
      refine bind_eq_ok_iff.mpr
        ⟨.filtered conditions contains, collectFilters_written conditions contains, ?_⟩
      exact bind_eq_ok_iff.mpr ⟨parents, mapM_toStep_eq_ok_iff.mpr rfl, rfl⟩

theorem Trail.ofList?_eq_some {α : Type} {xs : List α} {t : Trail α}
    (h : Trail.ofList? xs = some t) : xs = t.toList := by
  induction xs generalizing t with
  | nil => cases h
  | cons x xs ih =>
      cases xs with
      | nil =>
          cases h
          rfl
      | cons y ys =>
          obtain ⟨u, hu, heq⟩ := Option.map_eq_some_iff.mp h
          cases heq
          rw [ih hu]
          rfl

/-- A path that denotes a query is its written form, up to the order of the
predicates of the last step. -/
theorem written_of_toQuery {e : Expression} {q : Query} (h : e.toQuery = .ok q) :
    q.written = e.arranged := by
  obtain ⟨anchor, ⟨parents, last⟩, ancestor⟩ := e
  obtain ⟨axis, haxis, h⟩ := toQuery_eq_ok_iff.mp h
  rw [checkedAxis_eq_ok_iff] at haxis
  simp only at haxis h
  subst haxis
  split at h
  · unfold Expression.leafTextQuery at h
    split at h
    · rename_i value hlast
      split at h
      · cases h
      · rename_i owner howner
        obtain ⟨steps, hsteps, h⟩ := bind_eq_ok_iff.mp h
        obtain ⟨target, htarget, h⟩ := bind_eq_ok_iff.mp h
        cases h
        rw [mapM_toStep_eq_ok_iff] at hsteps
        rw [toStep_eq_ok_iff] at htarget
        have hparents := Trail.ofList?_eq_some howner
        simp only at hparents hlast
        simp only [Query.written, Query.writtenSteps, Expression.arranged,
          WrittenStep.arranged, hlast, hparents, Trail.toList, hsteps, htarget]
        rfl
    · cases h
  · obtain ⟨selection, hsel, h⟩ := bind_eq_ok_iff.mp h
    obtain ⟨steps, hsteps, h⟩ := bind_eq_ok_iff.mp h
    cases h
    obtain ⟨c, k, rfl, hc, hk⟩ := collectFilters_eq_ok hsel
    rw [mapM_toStep_eq_ok_iff] at hsteps
    simp only [Option.map_none, Option.toList_none, List.nil_append] at hc hk hsteps
    simp only [Query.written, Query.writtenSteps, Expression.arranged, WrittenStep.arranged,
      hc, hk, hsteps]

/-! ## The canonical spelling of a path -/

def Predicate.chars : Predicate → List Char
  | .conditions g => g.bracketed
  | .text v => "[text()=".toList ++ quoted v.toList ++ [']']
  | .contains c =>
    "[contains(@".toList ++ c.leaf.toList ++ ',' :: quoted c.value.toList ++ [')', ']']

@[simp] theorem Predicate.chars_conditions (g : ConditionGroup) :
    (Predicate.conditions g).chars = g.bracketed := rfl

@[simp] theorem Predicate.chars_text (v : String) :
    (Predicate.text v).chars = "[text()=".toList ++ quoted v.toList ++ [']'] := rfl

@[simp] theorem Predicate.chars_contains (c : LeafText) :
    (Predicate.contains c).chars
      = "[contains(@".toList ++ c.leaf.toList ++ ',' :: quoted c.value.toList ++ [')', ']'] := rfl

def WrittenStep.chars (s : WrittenStep) : List Char :=
  s.name.toList ++ s.predicates.flatMap Predicate.chars

/-- Steps separated by slashes. -/
def Trail.chars (t : Trail WrittenStep) : List Char :=
  ['/'].intercalate (t.toList.map WrittenStep.chars)

def axisChars : Option (Trail WrittenStep) → List Char
  | none => []
  | some t => '/' :: (axisLead ++ t.chars)

def Expression.chars (e : Expression) : List Char :=
  e.anchor.chars ++ (e.steps.chars ++ axisChars e.ancestor)

theorem quotedAs_quoted {v w : List Char} (h : QuotedAs v w) : QuotedAs v (quoted v) := by
  obtain ⟨q, hq, hv, -⟩ := h
  unfold quoted
  split
  · rename_i hsingle
    refine ⟨'"', .inr rfl, ?_, rfl⟩
    rcases hq with rfl | rfl
    · exact absurd hsingle hv
    · exact hv
  · rename_i hsingle
    exact ⟨'\'', .inl rfl, hsingle, rfl⟩

theorem integerAs_ofInt {n : Int} (h : Decimal.IsInt64 n) : IntegerAs n (Decimal.ofInt n) := by
  cases n with
  | ofNat n =>
      refine ⟨false, [], Decimal.digits n, .inl rfl, Decimal.digits_ne_nil n, ?_, ?_, h, rfl⟩
      · intro c hc
        exact Decimal.isDigit_of_mem_digits hc
      · simp
  | negSucc n =>
      refine ⟨true, ['-'], Decimal.digits (n + 1), rfl, Decimal.digits_ne_nil _, ?_, ?_, h, rfl⟩
      · intro c hc
        exact Decimal.isDigit_of_mem_digits hc
      · simp only [Decimal.natOfDigits_digits, if_true]
        rfl

theorem literalAs_chars {l : Literal} {w : List Char} (h : LiteralAs l w) :
    LiteralAs l l.chars := by
  cases l with
  | integer n =>
      obtain ⟨_, _, _, _, _, _, _, hrange, _⟩ := h
      exact integerAs_ofInt hrange
  | text v => exact quotedAs_quoted h

theorem conditionAs_chars {c : Condition} {w : List Char} (h : ConditionAs c w) :
    ConditionAs c c.chars := by
  obtain ⟨_, _, v, hleaf, _, _, hv, _⟩ := h
  exact ⟨[], [], c.value.chars, hleaf, blank_nil, blank_nil, literalAs_chars hv,
    by simp [Condition.chars]⟩

theorem joinedAs_chars {more : List (Connective × Condition)} {t : List Char}
    (h : JoinedAs more t) : JoinedAs more (more.flatMap joinedChars) := by
  have hblank : Blank [' '] := by
    intro c hc
    rw [List.mem_singleton.mp hc]
    rfl
  induction h with
  | nil => exact .nil blank_nil
  | @cons k c more b₁ b₂ w t _ _ hc _ ih =>
      have := JoinedAs.cons (k := k) hblank hblank (conditionAs_chars hc) ih
      simpa [joinedChars] using this

theorem predicateAs_chars {p : Predicate} {w : List Char} (h : PredicateAs p w) :
    PredicateAs p p.chars := by
  obtain ⟨b, body, hb, hbody, -⟩ := h
  cases hbody with
  | conditions hw ht =>
      have hbody := BodyAs.conditions (conditionAs_chars hw) (joinedAs_chars ht)
      refine ⟨[], _, blank_nil, hbody, ?_⟩
      simp [ConditionGroup.bracketed, ConditionGroup.chars]
  | text _ _ _ hw =>
      have hbody := BodyAs.text blank_nil blank_nil blank_nil (quotedAs_quoted hw)
      refine ⟨[], _, blank_nil, hbody, ?_⟩
      simp
  | contains _ _ _ _ _ hleaf hw =>
      have hbody := BodyAs.contains blank_nil blank_nil blank_nil blank_nil blank_nil hleaf
        (quotedAs_quoted hw)
      refine ⟨[], _, blank_nil, hbody, ?_⟩
      simp

/-- Predicates are spelled one by one. -/
theorem predicatesAs_iff {ps : List Predicate} :
    (∃ w, PredicatesAs ps w) ↔ ∀ p ∈ ps, PredicateAs p p.chars := by
  constructor
  · rintro ⟨w, h⟩
    induction h with
    | nil => simp
    | cons hp _ ih =>
        intro p hmem
        rcases List.mem_cons.mp hmem with rfl | hmem
        · exact predicateAs_chars hp
        · exact ih p hmem
  · intro h
    induction ps with
    | nil => exact ⟨[], .nil⟩
    | cons p ps ih =>
        obtain ⟨t, ht⟩ := ih fun q hq => h q (List.mem_cons_of_mem p hq)
        exact ⟨_, .cons (h p List.mem_cons_self) ht⟩

theorem predicatesAs_chars {ps : List Predicate} {w : List Char} (h : PredicatesAs ps w) :
    PredicatesAs ps (ps.flatMap Predicate.chars) := by
  induction h with
  | nil => exact .nil
  | cons hp _ ih => exact .cons (predicateAs_chars hp) ih

theorem stepAs_chars {s : WrittenStep} {w : List Char} (h : StepAs s w) : StepAs s s.chars := by
  obtain ⟨t, hname, hps, -⟩ := h
  exact ⟨_, hname, predicatesAs_chars hps, rfl⟩

/-- The order of the predicates does not matter to whether a step has a
spelling. -/
theorem stepAs_arranged {s : WrittenStep} {w : List Char} (h : StepAs s w) :
    ∃ w', StepAs s.arranged w' := by
  obtain ⟨t, hname, hps, -⟩ := h
  have hall := predicatesAs_iff.mp ⟨t, hps⟩
  have harranged : ∀ p ∈ s.arranged.predicates, PredicateAs p p.chars := by
    intro p hp
    apply hall
    rcases List.mem_append.mp hp with hp | hp
    · exact (List.mem_filter.mp hp).1
    · exact (List.mem_filter.mp hp).1
  obtain ⟨t', ht'⟩ := predicatesAs_iff.mpr harranged
  exact ⟨_, t', hname, ht', rfl⟩

theorem Trail.chars_cons (s : WrittenStep) (t : Trail WrittenStep) :
    Trail.chars ⟨s :: t.parents, t.last⟩ = s.chars ++ '/' :: t.chars := by
  obtain ⟨parents, last⟩ := t
  cases parents with
  | nil => simp [Trail.chars, Trail.toList, List.intercalate]
  | cons p ps => simp [Trail.chars, Trail.toList, List.intercalate]

theorem stepsAs_chars {t : Trail WrittenStep} {w : List Char} (h : StepsAs t w) :
    StepsAs t t.chars := by
  induction h with
  | @last s w hs =>
      have hchars : Trail.chars ⟨[], s⟩ = s.chars := by
        simp [Trail.chars, Trail.toList, List.intercalate]
      rw [hchars]
      exact .last (stepAs_chars hs)
  | cons hs _ ih =>
      rw [Trail.chars_cons]
      exact .cons (stepAs_chars hs) ih

/-- Arranging the last step keeps the steps spellable. -/
theorem stepsAs_arranged {t : Trail WrittenStep} {w : List Char} (h : StepsAs t w) :
    ∃ w', StepsAs ⟨t.parents, t.last.arranged⟩ w' := by
  induction h with
  | last hs =>
      obtain ⟨w', hw'⟩ := stepAs_arranged hs
      exact ⟨w', .last hw'⟩
  | cons hs _ ih =>
      obtain ⟨w', hw'⟩ := ih
      exact ⟨_, .cons hs hw'⟩

theorem expressionAs_chars {e : Expression} {w : List Char} (h : ExpressionAs e w) :
    ExpressionAs e e.chars := by
  obtain ⟨steps, rest, hsteps, -, haxis⟩ := h
  obtain ⟨anchor, trail, ancestor⟩ := e
  refine ⟨trail.chars, _, stepsAs_chars hsteps, rfl, ?_⟩
  cases ancestor with
  | none => rfl
  | some t =>
      obtain ⟨target, htarget, -⟩ := haxis
      exact ⟨t.chars, stepsAs_chars htarget, rfl⟩

theorem expressionAs_arranged {e : Expression} {w : List Char} (h : ExpressionAs e w) :
    ExpressionAs e.arranged e.arranged.chars := by
  obtain ⟨steps, rest, hsteps, -, haxis⟩ := h
  obtain ⟨w', hw'⟩ := stepsAs_arranged hsteps
  exact expressionAs_chars (w := e.anchor.chars ++ (w' ++ rest)) ⟨w', rest, hw', rfl, haxis⟩

/-! ## Reading back -/

/-- What a text that is read as a path denotes. -/
theorem parse_of_read {path : String} {e : Expression}
    (h : Expression.read path.toList = .ok e) :
    Query.parse path = e.toQuery.mapError (.malformed path) := by
  have hbind : Expression.read path.toList >>= Expression.toQuery = e.toQuery := by
    rw [h]
    rfl
  rw [Query.parse, hbind]
  cases e.toQuery <;> rfl

/-- A text denotes a query exactly if it is read as a path that does. -/
theorem parse_eq_ok_iff {path : String} {q : Query} :
    Query.parse path = .ok q
      ↔ ∃ e, Expression.read path.toList = .ok e ∧ e.toQuery = .ok q := by
  unfold Query.parse
  cases hread : Expression.read path.toList >>= Expression.toQuery with
  | error fault =>
      constructor
      · intro h
        cases h
      · rintro ⟨e, he, hq⟩
        rw [he] at hread
        change e.toQuery = _ at hread
        rw [hq] at hread
        cases hread
  | ok q' =>
      obtain ⟨e, he, hq⟩ := bind_eq_ok_iff.mp hread
      constructor
      · intro h
        cases h
        exact ⟨e, he, hq⟩
      · rintro ⟨e', he', hq'⟩
        rw [he] at he'
        cases he'
        rw [hq] at hq'
        cases hq'
        rfl

theorem Step.chars_written (s : Step) : s.written.chars = s.chars := by
  simp [Step.written, WrittenStep.chars, Step.chars, List.flatMap_map]

/-- Two nonempty lists of steps are joined by a slash. -/
theorem intercalate_append {xs ys : List (List Char)} (hx : xs ≠ []) (hy : ys ≠ []) :
    ['/'].intercalate (xs ++ ys) = ['/'].intercalate xs ++ '/' :: ['/'].intercalate ys := by
  induction xs with
  | nil => exact absurd rfl hx
  | cons x xs ih =>
      by_cases hxs : xs = []
      · rw [hxs, List.singleton_append, List.intercalate_cons_of_ne_nil hy,
          List.intercalate_singleton]
        simp
      · rw [List.cons_append, List.intercalate_cons_of_ne_nil (by simp [hxs]), ih hxs,
          List.intercalate_cons_of_ne_nil hxs]
        simp

/-- What the last step ends with comes last. -/
theorem intercalate_append_last (xs : List (List Char)) (a b : List Char) :
    ['/'].intercalate (xs ++ [a ++ b]) = ['/'].intercalate (xs ++ [a]) ++ b := by
  by_cases hx : xs = []
  · simp [hx, List.intercalate]
  · rw [intercalate_append hx (by simp), intercalate_append hx (by simp)]
    simp [List.intercalate]

theorem map_chars_written (steps : List Step) :
    (steps.map Step.written).map WrittenStep.chars = steps.map Step.chars := by
  rw [List.map_map]
  exact List.map_congr_left fun s _ => Step.chars_written s

/-- The steps of a query as written spell its address and its filters. -/
theorem chars_writtenSteps (q : Query) :
    q.writtenSteps.chars = stepsChars q.target.toList ++
      (q.conditions.elim [] ConditionGroup.bracketed
      ++ q.contains.elim [] (fun c => (Predicate.contains c).chars)
      ++ q.leafText.elim [] fun t => '/' :: t.leaf.toList ++ (Predicate.text t.value).chars) := by
  obtain ⟨anchor, parents, name, selection, ancestor⟩ := q
  cases selection with
  | leafText keys wanted =>
      simp only [Query.writtenSteps, Trail.chars, Trail.toList, stepsChars, Query.target,
        Query.keys, Query.conditions, Query.contains, Query.leafText, List.map_append,
        List.map_cons, List.map_nil, map_chars_written, Step.chars_written]
      rw [intercalate_append (by simp) (by simp)]
      simp [WrittenStep.chars]
  | filtered conditions contains =>
      have hlast : WrittenStep.chars ⟨name, (conditions.map Predicate.conditions).toList
          ++ (contains.map Predicate.contains).toList⟩
          = Step.chars ⟨name, []⟩ ++ ((conditions.map Predicate.conditions).toList
            ++ (contains.map Predicate.contains).toList).flatMap Predicate.chars := by
        simp [WrittenStep.chars, Step.chars]
      simp only [Query.writtenSteps, Trail.chars, Trail.toList, stepsChars, Query.target,
        Query.keys, Query.conditions, Query.contains, Query.leafText, List.map_append,
        map_chars_written, List.map_cons, List.map_nil, hlast, intercalate_append_last]
      cases conditions <;> cases contains <;> simp

theorem suffixChars_eq (q : Query) :
    q.suffixChars = q.conditions.elim [] ConditionGroup.bracketed
      ++ q.contains.elim [] (fun c => (Predicate.contains c).chars)
      ++ q.leafText.elim [] (fun t => '/' :: t.leaf.toList ++ (Predicate.text t.value).chars)
      ++ q.ancestor.elim [] fun t => "/ancestor::".toList ++ stepsChars t.toList := by
  unfold Query.suffixChars
  cases q.conditions <;> cases q.contains <;> cases q.leafText <;> cases q.ancestor <;> simp

/-- The text of a query is the canonical spelling of its written form. -/
theorem chars_written (q : Query) : q.written.chars = q.chars := by
  have haxis : axisChars q.written.ancestor
      = q.ancestor.elim [] fun t => "/ancestor::".toList ++ stepsChars t.toList := by
    cases hq : q.ancestor with
    | none => simp [Query.written, hq, axisChars]
    | some t =>
        simp only [Query.written, hq, Option.map_some, axisChars, Trail.chars,
          Trail.toList_map, map_chars_written, stepsChars]
        rfl
  unfold Expression.chars
  rw [haxis]
  show q.anchor.chars ++ (q.writtenSteps.chars ++ _) = q.addressChars ++ q.suffixChars
  rw [chars_writtenSteps, suffixChars_eq, Query.addressChars]
  simp only [List.append_assoc]

/-- The canonical text of a query that was read spells its written form. -/
theorem spelled_of_parse {path : String} {q : Query} (h : Query.parse path = .ok q) :
    ExpressionAs q.written q.chars := by
  obtain ⟨e, hread, hquery⟩ := parse_eq_ok_iff.mp h
  have hspelled := expressionAs_arranged (read_eq_ok_iff.mp hread)
  rwa [← written_of_toQuery hquery, chars_written] at hspelled

/-- The canonical text of a query whose written form can be spelled denotes it. -/
theorem parse_of_spelled {q : Query} {w : List Char} (h : ExpressionAs q.written w) :
    Query.parse q.normalized = .ok q := by
  have hchars := expressionAs_chars h
  rw [chars_written] at hchars
  refine parse_eq_ok_iff.mpr ⟨q.written, read_eq_ok_iff.mpr ?_, toQuery_written q⟩
  rwa [Query.normalized, String.toList_ofList]

/-- The canonical text of a query that was read denotes that query. -/
theorem parse_normalized {path : String} {q : Query} (h : Query.parse path = .ok q) :
    Query.parse q.normalized = .ok q :=
  parse_of_spelled (spelled_of_parse h)

/-! ## Normalizing -/

/-- The root marker denotes no query. -/
theorem isRoot_of_parse {path : String} {q : Query} (h : Query.parse path = .ok q) :
    isRoot path = false := by
  obtain ⟨e, hread, -⟩ := parse_eq_ok_iff.mp h
  obtain ⟨steps, rest, hsteps, hchars, -⟩ := read_eq_ok_iff.mp hread
  obtain ⟨c, hc, hstart⟩ := steps_head hsteps
  unfold isRoot
  rw [Bool.or_eq_false_iff, decide_eq_false_iff_not, decide_eq_false_iff_not]
  constructor
  · intro hempty
    rw [hempty] at hchars
    cases hanchor : e.anchor <;> rw [hanchor] at hchars <;> cases hchars
  · intro hroot
    rw [hroot] at hchars
    cases hanchor : e.anchor with
    | descendant =>
        rw [hanchor] at hchars
        cases hchars
    | absolute =>
        rw [hanchor] at hchars
        cases steps with
        | nil => cases hc
        | cons d steps => cases hchars

/-- The canonical text of a query is never the root marker. -/
theorem isRoot_normalized {path : String} {q : Query} (h : Query.parse path = .ok q) :
    isRoot q.normalized = false :=
  isRoot_of_parse (parse_normalized h)

/-- A canonical path is its own canonical path. -/
theorem normalize_normalize {path target : String} (h : normalize path = .ok target) :
    normalize target = .ok target := by
  unfold normalize at h
  split at h
  · cases h
    rfl
  · obtain ⟨q, hq, rfl⟩ := map_eq_ok_iff.mp h
    unfold normalize
    rw [isRoot_normalized hq, parse_normalized hq]
    rfl

end DataTree.Path
