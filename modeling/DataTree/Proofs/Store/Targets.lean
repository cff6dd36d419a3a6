import DataTree.Proofs.Store.Climb

/-!
# Axes that can be climbed

A path with an ancestor axis is checked twice: its steps when it is read, and the target
of the axis once more, as a query of its own, before the path is run.  The first check
lets every step of the axis have its keys in as many brackets as it likes.  The second one
takes the keys of the last step for the conditions of a query, and these stand in one
bracket.  So there are paths that can be read and never run: those with two brackets or
more at the end of their axis, and no others.

## Main definitions

* `Read.Runs` — whether a read runs the query of a path.
* `StoreError.blamesText` — whether an error finds fault with the text of a path.

## Main results

* `exists_targetQuery` — the query for a target, if its last step has one bracket at most.
* `selector_eq` — making a query with an axis ready to run.
* `axis_usable` — which axes can be used, and what becomes of the reads.
-/

namespace DataTree

open DataTree.Path

/-- Whether a read runs the query of a path; pages that are none are not looked at. -/
def Read.Runs (path : String) : Read → Prop
  | .query _ asked => asked = path
  | .queryAcross _ asked paging => asked = path ∧ paging.isValid = true
  | .get .. | .getMany .. => False

/-- Whether an error finds fault with the text of a path. -/
def StoreError.blamesText : StoreError → Bool
  | .badPath (.malformed ..) => true
  | _ => false

/-! ## Targets -/

/-- A target whose last step has one bracket at most has a query: its steps at any depth,
with nothing asked for but keys. -/
theorem exists_targetQuery {t : Trail Step} (h : t.last.keys.length ≤ 1) :
    ∃ a, targetQuery t = .ok a ∧ a.anchor = .descendant ∧ a.leafText = none ∧ a.contains = none
      ∧ a.ancestor = none := by
  obtain ⟨parents, name, keys⟩ := t
  cases keys with
  | nil => exact ⟨_, rfl, rfl, rfl, rfl, rfl⟩
  | cons first more =>
      cases more with
      | nil => exact ⟨_, rfl, rfl, rfl, rfl, rfl⟩
      | cons second rest => exact absurd h (by simp)

theorem targetQuery_eq_error {t : Trail Step} (h : 1 < t.last.keys.length) :
    targetQuery t = .error .secondConditionGroup := by
  obtain ⟨parents, name, keys⟩ := t
  cases keys with
  | nil => exact absurd h (by simp)
  | cons first more =>
      cases more with
      | nil => exact absurd h (by simp)
      | cons second rest => rfl

/-- The canonical text of a query with the steps of a target and nothing else. -/
theorem normalized_of_target {a : Query} {t : Trail Step}
    (h : a.written = ⟨.descendant, t.map Step.written, none⟩) :
    a.normalized = "//" ++ String.ofList (stepsChars t.toList) := by
  rw [Query.normalized, ← chars_written, h, ← String.toList_inj, String.toList_append,
    String.toList_ofList, String.toList_ofList]
  show _ ++ (Trail.chars (t.map Step.written) ++ []) = _
  rw [Trail.chars, Trail.toList_map, map_chars_written]
  simp [stepsChars, Anchor.chars]

section

variable {path : String} {q : Query} {t : Trail Step} (hpath : Query.parse path = .ok q)
  (haxis : q.ancestor = some t)

include hpath haxis

/-- A query with an axis is ready to run if none of its conditions orders by a quoted
value and there is a query for the target. -/
theorem selector_eq :
    q.selector = checkConditions q.conditionList >>= fun _ =>
      ((targetQuery t).mapError (.malformed ("//" ++ String.ofList (stepsChars t.toList)))).map
        fun a => ⟨q, some a⟩ := by
  have hancestor := ancestorQuery_eq hpath haxis
  rw [Query.selector, hancestor]
  refine bind_congr fun _ => ?_
  cases htarget : targetQuery t with
  | error fault => rfl
  | ok a =>
      rw [htarget] at hancestor
      obtain ⟨u, hu, hwritten⟩ := written_of_ancestorQuery hpath hancestor
      show (checkConditions a.conditionList >>= _) = _
      rw [checkConditions_of_target hwritten]
      rfl

end

/-! ## Reads -/

section

variable {s : Store} {fetch : Fetch} {path : String} {asked : Read}

/-- Reads of a path that cannot be made ready to run are refused for that. -/
theorem read_of_refused {e : StoreError} (hroot : isRoot path = false)
    (h : readSelector path = .error e) (hruns : asked.Runs path) :
    s.read fetch asked = .error e := by
  rw [read_eq]
  cases asked with
  | get owner asked => cases hruns
  | getMany owner asked => cases hruns
  | query owner asked =>
      obtain rfl : asked = path := hruns
      rw [Store.found, hroot, h]
      rfl
  | queryAcross dataspace asked paging =>
      obtain ⟨rfl, hpaging⟩ := hruns
      rw [Store.found, hpaging, h]
      rfl

/-- Reads of a path fail in making it ready to run, in the engine, or for leaves that cannot
be read. -/
theorem failsWith_read {P : StoreError → Prop} (hselector : FailsWith P (readSelector path))
    (hengine : ∀ fault, P (.engine fault)) (hunreadable : P .unreadableLeaves)
    (hroot : isRoot path = false) (hruns : asked.Runs path) :
    FailsWith P (s.read fetch asked) := by
  have hselect : ∀ scope q, FailsWith P (s.select scope q) := by
    intro scope q
    refine (failsWith_select s scope q).mono ?_
    rintro e ⟨fault, rfl⟩
    exact hengine fault
  have hnodes : ∀ rows, FailsWith P (s.nodes fetch rows) := by
    intro rows
    refine (failsWith_nodes s fetch rows).mono ?_
    rintro e rfl
    exact hunreadable
  rw [read_eq]
  refine .bind ?_ hnodes
  cases asked with
  | get owner asked => cases hruns
  | getMany owner asked => cases hruns
  | query owner asked =>
      obtain rfl : asked = path := hruns
      rw [Store.found, hroot]
      exact .bind hselector fun q => hselect _ q
  | queryAcross dataspace asked paging =>
      obtain ⟨rfl, hpaging⟩ := hruns
      rw [Store.found, hpaging]
      refine .bind hselector fun q => .bind ?_ fun scope => hselect scope q
      refine (failsWith_pageScope dataspace q paging).mono ?_
      rintro e ⟨fault, rfl⟩
      exact hengine fault

theorem failsWith_countOwners {P : StoreError → Prop} (hselector : FailsWith P (readSelector path))
    (hengine : ∀ fault, P (.engine fault)) (dataspace : Dataspace) :
    FailsWith P (s.countOwners dataspace path) := by
  refine .bind hselector fun q => .bind ?_ fun rows => .ok _
  refine (failsWith_select s _ q).mono ?_
  rintro e ⟨fault, rfl⟩
  exact hengine fault

end

/-- Of an axis, everything can be used but keys in two brackets or more at its end.
Without these there is a query for the target, at any depth and without functions or an
axis, whose canonical text is that of the target, and no read of the path is refused for
the text of a path.  With them there is none, and every read is refused, in every store:
for the text of the target, or for a condition before the axis that orders by a quoted
value. -/
theorem axis_usable {path : String} {q : Query} {t : Trail Step}
    (hpath : Query.parse path = .ok q) (haxis : q.ancestor = some t) :
    ∃ name, q.ancestorName = some name
      ∧ (t.last.keys.length ≤ 1 →
        (∃ a, q.ancestorQuery = some (.ok a) ∧ a.anchor = .descendant ∧ a.leafText = none
          ∧ a.contains = none ∧ a.ancestor = none ∧ a.normalized = "//" ++ name)
        ∧ ∀ (s : Store) fetch dataspace (asked : Read), asked.Runs path →
          FailsWith (·.blamesText = false) (s.read fetch asked)
            ∧ FailsWith (·.blamesText = false) (s.countOwners dataspace path))
      ∧ (1 < t.last.keys.length →
        q.ancestorQuery = some (.error (.malformed ("//" ++ name) .secondConditionGroup))
        ∧ ∃ e, (e = .malformed ("//" ++ name) .secondConditionGroup
            ∨ ∃ c ∈ q.conditionList, c.isTextOrder = true ∧ e = .textComparison c.leaf c.comparison)
          ∧ ∀ (s : Store) fetch dataspace (asked : Read), asked.Runs path →
            s.read fetch asked = .error (.badPath e)
              ∧ s.countOwners dataspace path = .error (.badPath e)) := by
  have hroot := isRoot_of_parse hpath
  have hancestor := ancestorQuery_eq hpath haxis
  have hselector := selector_eq hpath haxis
  have hready := readSelector_of_parse hpath
  refine ⟨_, by rw [Query.ancestorName, haxis]; rfl, fun hone => ?_, fun hmore => ?_⟩
  · obtain ⟨a, htarget, hanchor, htext, hcontains, hnone⟩ := exists_targetQuery hone
    rw [htarget] at hancestor hselector
    obtain ⟨u, hu, hwritten⟩ := written_of_ancestorQuery hpath hancestor
    obtain rfl : t = u := Option.some.inj (haxis.symm.trans hu)
    refine ⟨⟨a, hancestor, hanchor, htext, hcontains, hnone, normalized_of_target hwritten⟩,
      fun s fetch dataspace asked hruns => ?_⟩
    -- what is left to find fault with is the order of a condition
    have hfails : FailsWith (·.blamesText = false) (readSelector path) := by
      rw [hready, hselector, checkConditions_eq]
      cases q.conditionList.find? Condition.isTextOrder with
      | none => exact .ok _
      | some c => exact .error rfl
    have hengine : ∀ fault, (StoreError.engine fault).blamesText = false := fun _ => rfl
    exact ⟨failsWith_read hfails hengine rfl hroot hruns,
      failsWith_countOwners hfails hengine dataspace⟩
  · have htarget := targetQuery_eq_error hmore
    rw [htarget] at hancestor hselector
    refine ⟨hancestor, ?_⟩
    have hrefused : ∃ e, (e = .malformed ("//" ++ String.ofList (stepsChars t.toList))
          .secondConditionGroup
        ∨ ∃ c ∈ q.conditionList, c.isTextOrder = true ∧ e = .textComparison c.leaf c.comparison)
        ∧ q.selector = .error e := by
      rw [hselector, checkConditions_eq]
      cases hfind : q.conditionList.find? Condition.isTextOrder with
      | none => exact ⟨_, .inl rfl, rfl⟩
      | some c =>
          exact ⟨_, .inr ⟨c, List.mem_of_find?_eq_some hfind, List.find?_some hfind, rfl⟩, rfl⟩
    obtain ⟨e, he, hselector⟩ := hrefused
    have hready : readSelector path = .error (.badPath e) := by
      rw [hready, hselector]
      rfl
    refine ⟨e, he, fun s fetch dataspace asked hruns => ⟨read_of_refused hroot hready hruns, ?_⟩⟩
    rw [Store.countOwners, hready]
    rfl

/-- One bracket at the end of an axis can be used, and so can two before its end. -/
theorem axis_usable_of_keys :
    let path := "//z/ancestor::x[@k='1'][@j='2']/y[@id='3']"
    ∃ q a, Query.parse path = .ok q ∧ q.ancestorQuery = some (.ok a)
      ∧ a.normalized = "//x[@k='1'][@j='2']/y[@id='3']"
      ∧ ∀ (s : Store) owner fetch, FailsWith (·.blamesText = false) (s.query owner path fetch) := by
  intro path
  let q : Query := ⟨.descendant, [], "z", .filtered none none,
    some ⟨[⟨"x", [⟨⟨"k", .text "1"⟩, []⟩, ⟨⟨"j", .text "2"⟩, []⟩]⟩],
      ⟨"y", [⟨⟨"id", .text "3"⟩, []⟩]⟩⟩⟩
  have hpath : (Query.parse path).toOption = some q := by decide +kernel
  rw [toOption_eq_some_iff] at hpath
  obtain ⟨name, hname, husable, -⟩ := axis_usable hpath rfl
  obtain rfl : "x[@k='1'][@j='2']/y[@id='3']" = name := by
    have hnamed : q.ancestorName = some "x[@k='1'][@j='2']/y[@id='3']" := by decide +kernel
    exact Option.some.inj (hnamed.symm.trans hname)
  obtain ⟨⟨a, haxis, -, -, -, -, hnormalized⟩, hreads⟩ := husable (by decide)
  exact ⟨q, a, hpath, haxis, hnormalized, fun s owner fetch =>
    (hreads s fetch ⟨1, "d"⟩ (.query owner path) rfl).1⟩

/-- Two brackets at the end of an axis are accepted when the path is read, and refused
when it is run, be the store empty. -/
theorem axis_unusable :
    let path := "//a/ancestor::b[@k='1'][@j='2']"
    let fault : PathError := .malformed "//b[@k='1'][@j='2']" .secondConditionGroup
    ∃ q, Query.parse path = .ok q ∧ q.ancestorName = some "b[@k='1'][@j='2']"
      ∧ q.ancestorQuery = some (.error fault)
      ∧ Store.empty.query ⟨1, 1, "d", "o"⟩ path .nodeOnly = .error (.badPath fault) := by
  intro path fault
  let q : Query := ⟨.descendant, [], "a", .filtered none none,
    some ⟨[], ⟨"b", [⟨⟨"k", .text "1"⟩, []⟩, ⟨⟨"j", .text "2"⟩, []⟩]⟩⟩⟩
  have hpath : (Query.parse path).toOption = some q := by decide +kernel
  rw [toOption_eq_some_iff] at hpath
  have hname : q.ancestorName = some "b[@k='1'][@j='2']" := by decide +kernel
  have haxis : q.ancestorQuery = some (.error fault) := by
    rw [ancestorQuery_eq hpath rfl]
    rfl
  have hready : readSelector path = .error (.badPath fault) := by
    rw [readSelector_of_parse hpath, selector_eq hpath rfl]
    rfl
  have hquery : Store.empty.read .nodeOnly (.query ⟨1, 1, "d", "o"⟩ path)
      = .error (.badPath fault) := read_of_refused (by decide) hready rfl
  exact ⟨q, hpath, hname, haxis, hquery⟩

end DataTree
