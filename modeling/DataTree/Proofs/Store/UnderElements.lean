import DataTree.Proofs.Path.Axis
import DataTree.Proofs.Store.ListElements

/-!
# Below the elements of lists

The path of a list element is told by its shape: from the roots, with conditions on its
last step and nothing else.  Which conditions is not asked.  Keys pick an element, and as
such they may stand on a step before the last one as well, so paths go on below them.
Other conditions are filters, which only a last step may hold: what passes for an element
by them can be stored, but has no children, as no path leads to one.

## Main definitions

* `Query.below` — the path of a child, by its name.

## Main results

* `parse_below_keys` — below keys all names lead to a child.
* `parse_below_filter`, `withoutAxis_of_extends` — below other conditions no name does, and
  what still goes on there is an axis.
* `children_of_elements` — which paths pass for those of elements, and what can be stored
  below them.
-/

namespace DataTree

namespace Path

/-! ## Steps behind steps -/

theorem StepsAs.append {t m : Trail WrittenStep} {w v : List Char} (ht : StepsAs t w)
    (hm : StepsAs m v) : StepsAs ⟨t.toList ++ m.parents, m.last⟩ (w ++ '/' :: v) := by
  induction ht with
  | last hs => exact .cons hs hm
  | cons hs ht ih =>
      rw [List.append_assoc, List.cons_append]
      exact .cons hs ih

/-- One predicate leaves nothing to rearrange. -/
theorem eq_of_arranged {s : WrittenStep} {name : String} {p : Predicate}
    (h : s.arranged = ⟨name, [p]⟩) : s = ⟨name, [p]⟩ := by
  obtain ⟨name', predicates⟩ := s
  obtain ⟨rfl, hpredicates⟩ := WrittenStep.mk.inj h
  have hperm := List.filter_append_perm Predicate.isConditions predicates
  rw [hpredicates] at hperm
  rw [List.perm_singleton.mp hperm.symm]

/-- Conditions that are no keys cannot stand on a step before the last one. -/
theorem toStep_filter {name : String} {g : ConditionGroup} (h : ¬g.IsKeys) :
    WrittenStep.toStep ⟨name, [.conditions g]⟩ = .error (.notListKeys name) := by
  have hkeys : g.toKeys? = none := by
    rw [Option.eq_none_iff_forall_not_mem]
    intro keys hkeys
    exact h (ConditionGroup.isKeys_iff.mpr ⟨keys, toKeys?_eq_some hkeys⟩)
  have hpredicate : Predicate.toKeys name (.conditions g) = .error (.notListKeys name) := by
    rw [Predicate.toKeys, hkeys]
  rw [WrittenStep.toStep, List.mapM_cons, hpredicate]
  rfl

/-! ## The paths of children -/

/-- The path of the child of a name, below the element that `q` picks by `keys`. -/
def Query.below (q : Query) (keys : KeyGroup) (name : String) : Query :=
  ⟨q.anchor, q.parents ++ [⟨q.name, [keys]⟩], name, .filtered none none, none⟩

section

variable {path : String} {q : Query} {g : ConditionGroup} (hpath : Query.parse path = .ok q)
  (hlist : q.namesListElement = true) (hconditions : q.conditions = some g)

include hlist hconditions

theorem selection_of_element : q.selection = .filtered (some g) none := by
  obtain ⟨-, -, g', hselection⟩ := Query.namesListElement_iff.mp hlist
  have hconditions' : q.conditions = some g' := by
    rw [Query.conditions, hselection]
  rw [hselection, hconditions'.symm.trans hconditions]

theorem writtenSteps_of_element :
    q.writtenSteps = ⟨q.parents.map Step.written, ⟨q.name, [.conditions g]⟩⟩ := by
  rw [Query.writtenSteps, selection_of_element hlist hconditions]
  rfl

include hpath

/-- The path of an element is read as it is printed, up to blanks and quotes. -/
theorem read_of_element : Expression.read path.toList = .ok q.written := by
  obtain ⟨e, hread, hquery⟩ := parse_eq_ok_iff.mp hpath
  have hwritten := written_of_toQuery hquery
  have hlast : e.steps.last.arranged = ⟨q.name, [.conditions g]⟩ := by
    have harranged : q.writtenSteps = e.arranged.steps := congrArg Expression.steps hwritten
    rw [writtenSteps_of_element hlist hconditions] at harranged
    exact (congrArg Trail.last harranged).symm
  rw [hread, hwritten, Expression.arranged, hlast, ← eq_of_arranged hlast]

/-- A name behind the path of an element is read as one more step. -/
theorem read_below {name : String} (hname : IsName name.toList) :
    Expression.read (path ++ "/" ++ name).toList
      = .ok ⟨q.anchor, ⟨q.writtenSteps.toList, ⟨name, []⟩⟩, none⟩ := by
  obtain ⟨-, hnone, -⟩ := Query.namesListElement_iff.mp hlist
  obtain ⟨w, rest, hw, htext, haxis⟩ := read_eq_ok_iff.mp (read_of_element hpath hlist hconditions)
  rw [show q.written.ancestor = none by rw [Query.written, hnone]; rfl] at haxis
  have hstep : StepAs ⟨name, []⟩ name.toList := ⟨[], hname, .nil, by simp⟩
  refine read_eq_ok_iff.mpr ⟨w ++ '/' :: name.toList, [], ?_, ?_, rfl⟩
  · simpa [Query.written] using hw.append (.last hstep)
  · simp [htext, show rest = [] from haxis, Query.written]

/-- Below an element that is picked by its keys every name leads to a child. -/
theorem parse_below_keys {keys : KeyGroup} (hkeys : g = keys.toConditions) {name : String}
    (hname : IsName name.toList) :
    Query.parse (path ++ "/" ++ name) = .ok (q.below keys name) := by
  refine parse_eq_ok_iff.mpr ⟨_, read_below hpath hlist hconditions hname, ?_⟩
  have hwritten : (q.below keys name).written
      = ⟨q.anchor, ⟨q.writtenSteps.toList, ⟨name, []⟩⟩, none⟩ := by
    rw [writtenSteps_of_element hlist hconditions, hkeys]
    simp [Query.below, Query.written, Query.writtenSteps, Step.written, Trail.toList]
  rw [← hwritten, toQuery_written]

variable (hkeys : ¬g.IsKeys)

include hkeys

/-- Below what is picked by other conditions no name does. -/
theorem parse_below_filter {name : String} (hname : IsName name.toList) :
    Query.parse (path ++ "/" ++ name)
      = .error (.malformed (path ++ "/" ++ name) (.notListKeys q.name)) := by
  have hparents : (q.parents.map Step.written).mapM WrittenStep.toStep = .ok q.parents :=
    mapM_toStep_eq_ok_iff.mpr rfl
  have hsteps : q.writtenSteps.toList.mapM WrittenStep.toStep
      = .error (.notListKeys q.name) := by
    rw [writtenSteps_of_element hlist hconditions, Trail.toList, List.mapM_append, hparents,
      List.mapM_cons, toStep_filter hkeys]
    rfl
  have hquery : (⟨q.anchor, ⟨q.writtenSteps.toList, ⟨name, []⟩⟩, none⟩ : Expression).toQuery
      = .error (.notListKeys q.name) := by
    show q.writtenSteps.toList.mapM WrittenStep.toStep >>= _ = _
    rw [hsteps]
    rfl
  rw [parse_of_read (read_below hpath hlist hconditions hname), hquery]
  rfl

/-- The paths that still go on there ask for what is above. -/
theorem withoutAxis_of_extends {child : String} {p : Query} (hextends : Extends path child)
    (hchild : Query.parse child = .ok p) : p.ancestor.isSome = true ∧ p.withoutAxis = q := by
  obtain ⟨-, hnone, -⟩ := Query.namesListElement_iff.mp hlist
  obtain ⟨more, -, htext⟩ := extends_iff_toList.mp hextends
  obtain ⟨e, hread, hquery⟩ := parse_eq_ok_iff.mp hchild
  rw [htext] at hread
  have hgoes := goesOn_of_read (read_of_element hpath hlist hconditions) hread
  cases hgoes with
  | @axis t _ =>
      have hwritten : p.written = { q.written.arranged with ancestor := some t } :=
        written_of_toQuery hquery
      rw [← written_of_toQuery (toQuery_written q)] at hwritten
      have hsome : p.ancestor.map (Trail.map Step.written) = some t :=
        congrArg Expression.ancestor hwritten
      have hbefore : p.withoutAxis.written = q.written :=
        calc p.withoutAxis.written = { p.written with ancestor := none } := rfl
          _ = { q.written with ancestor := none } := by rw [hwritten]
          _ = q.written := by rw [Query.written, hnone]; rfl
      refine ⟨?_, ?_⟩
      · rw [← Option.isSome_map, hsome]
        rfl
      · have hsame := toQuery_written p.withoutAxis
        rw [hbefore, toQuery_written] at hsame
        exact (Except.ok.inj hsame).symm
  | steps _ _ =>
      have hstep : (⟨q.name, [.conditions g]⟩ : WrittenStep).KeysOnly := by
        refine (denotes_iff_admissible.mp ⟨p, hquery⟩).parents _ (List.mem_append_left _ ?_)
        show _ ∈ q.writtenSteps.toList
        rw [writtenSteps_of_element hlist hconditions]
        exact List.mem_append_right _ List.mem_cons_self
      exact absurd (hstep _ List.mem_cons_self) hkeys
  | axisSteps hsome _ =>
      rw [Query.written, hnone] at hsome
      cases hsome

end

end Path

open DataTree.Path

/-! ## What is stored below elements -/

theorem plan_addList_eq_ok_iff {s : Store} {owner : Owner} {parent : String}
    {elements : List Node} {change : Change} :
    Write.plan s owner (.addList parent elements) = .ok change
      ↔ (∀ n ∈ elements, namesListElement n.path = true)
        ∧ Write.plan s owner (.add parent elements) = .ok change := by
  show planAddList s owner parent elements = .ok change ↔ _
  rw [planAddList]
  split
  · rename_i n hfind
    have hn : namesListElement n.path = false := by simpa using List.find?_some hfind
    constructor
    · intro h
      cases h
    · rintro ⟨hall, -⟩
      rw [hall n (List.mem_of_find?_eq_some hfind)] at hn
      cases hn
  · rename_i hnone
    have hall : ∀ n ∈ elements, namesListElement n.path = true := by
      simpa using List.find?_eq_none.mp hnone
    exact (and_iff_right hall).symm

theorem names_of_plan_replaceList {s : Store} {owner : Owner} {parent : String}
    {elements : List Node} {change : Change}
    (h : Write.plan s owner (.replaceList parent elements) = .ok change) :
    ∃ first rest, elements = first :: rest ∧ namesListElement first.path = true := by
  obtain ⟨first, rest, q, rfl, hq, hlist, -⟩ := inOneList_of_plan h
  refine ⟨first, rest, rfl, ?_⟩
  rw [namesListElement, hq]
  exact hlist

section

variable {path : String} {q : Query} {g : ConditionGroup} (hpath : Query.parse path = .ok q)
  (hlist : q.namesListElement = true) (hconditions : q.conditions = some g)

include hpath hlist hconditions

/-- A child of any name is planned below a row that is picked by its keys. -/
theorem plan_add_below {keys : KeyGroup} (hkeys : g = keys.toConditions) {name : String}
    (hname : IsName name.toList) {s : Store} {owner : Owner} {r : Row} {leaves : Leaves}
    (hrow : s.rowNamed owner path = .ok r) (hleaves : Node.badLeaf? leaves = none) :
    Write.plan s owner (.add path [.mk (path ++ "/" ++ name) leaves []])
      = .ok (.edits [.insert (some r.id)
          (.mk (q.below keys name).normalized leaves.text [])]) := by
  have hroot := isRoot_of_parse hpath
  have hchild := parse_below_keys hpath hlist hconditions hkeys hname
  have hne : name ≠ "" := by
    rintro rfl
    rcases hname with hid | ⟨a, b, -, -, hab⟩
    · cases hid
    · simp at hab
  obtain ⟨-, -, hrowPath⟩ := rowNamed_eq_ok hrow
  have hextends := normalize_extends hroot hrowPath (normalize_of_parse hchild) ⟨name, hne, rfl⟩
  have hbelow : Node.isChildPath r.path (q.below keys name).normalized = true := by
    refine (isChildPath_iff ?_).mpr hextends
    rw [← Except.ok.inj ((normalize_of_parse hpath).symm.trans hrowPath)]
    exact isRoot_normalized hpath
  show planAdd s owner path _ = _
  rw [planAdd, Store.parentNamed, if_neg (by simp [hroot]), hrow]
  show draftsUnder r.path _ >>= _ = _
  have hnone : [Draft.mk (q.below keys name).normalized leaves.text []].find? (fun d =>
      !(isRoot r.path || Node.isChildPath r.path d.path)) = none := by
    simp [Draft.path, hbelow]
  rw [draftsUnder, drafts_of_parse hchild hleaves]
  simp only [bind, Except.bind, hnone]
  rfl

/-- Below a row that is picked by other conditions only rows with an axis hang. -/
theorem axis_of_parent (hkeys : ¬g.IsKeys) {s : Store} (hs : s.Sound) {r child : Row}
    (hr : r ∈ s.rows) (hchild : child ∈ s.rows) (hrow : r.path = q.normalized)
    (hparent : child.parent = some r.id) :
    ∃ p, Query.parse child.path = .ok p ∧ p.ancestor.isSome = true := by
  obtain ⟨-, hextends⟩ := hs.of_parent hr hchild hparent
  obtain ⟨hcanonical, hroot⟩ := hs.canonical child hchild
  obtain ⟨p, hp, -⟩ := parse_of_normalize hcanonical hroot
  rw [hrow] at hextends
  exact ⟨p, hp, (withoutAxis_of_extends (parse_normalized hpath) hlist hconditions hkeys
    hextends hp).1⟩

end

/-- What passes for the path of a list element is any path from the roots that ends in
conditions and has neither functions nor an axis; new elements are let through exactly by
that.  If its conditions are keys, every name leads to a child, which can be stored below
the element.  If they are not, no name does, what goes on below asks for an axis, and
whatever operations have been run no other row hangs there. -/
theorem children_of_elements (path : String) :
    (namesListElement path = true ↔ ∃ q g, Query.parse path = .ok q ∧ q.anchor = .absolute
        ∧ q.ancestor = none ∧ q.selection = .filtered (some g) none)
      ∧ (∀ s owner parent elements change,
        Write.plan s owner (.addList parent elements) = .ok change
          ↔ (∀ n ∈ elements, namesListElement n.path = true)
            ∧ Write.plan s owner (.add parent elements) = .ok change)
      ∧ (∀ s owner parent elements change,
        Write.plan s owner (.replaceList parent elements) = .ok change →
          ∃ first rest, elements = first :: rest ∧ namesListElement first.path = true)
      ∧ ∀ q g, Query.parse path = .ok q → q.namesListElement = true → q.conditions = some g →
        (g.IsKeys → ∃ keys : KeyGroup, g = keys.toConditions
          ∧ ∀ name : String, IsName name.toList →
            Query.parse (path ++ "/" ++ name) = .ok (q.below keys name)
            ∧ ∀ (s : Store) owner r leaves, s.rowNamed owner path = .ok r →
              Node.badLeaf? leaves = none →
                Write.plan s owner (.add path [.mk (path ++ "/" ++ name) leaves []])
                  = .ok (.edits [.insert (some r.id)
                      (.mk (q.below keys name).normalized leaves.text [])]))
        ∧ (¬g.IsKeys →
          (∀ name : String, IsName name.toList → Query.parse (path ++ "/" ++ name)
            = .error (.malformed (path ++ "/" ++ name) (.notListKeys q.name)))
          ∧ (∀ child p, Extends path child → Query.parse child = .ok p →
            p.ancestor.isSome = true ∧ p.withoutAxis = q)
          ∧ ∀ history : List Operation, let s := Store.empty.after history
            ∀ r ∈ s.rows, ∀ child ∈ s.rows, r.path = q.normalized → child.parent = some r.id →
              ∃ p, Query.parse child.path = .ok p ∧ p.ancestor.isSome = true) := by
  refine ⟨?_, fun s owner parent elements change => plan_addList_eq_ok_iff,
    fun s owner parent elements change h => names_of_plan_replaceList h,
    fun q g hpath hlist hconditions => ⟨fun hkeys => ?_, fun hkeys => ⟨?_, ?_, ?_⟩⟩⟩
  · rw [namesListElement]
    cases hparse : Query.parse path with
    | error e => simp
    | ok q => simp [Query.namesListElement_iff]
  · obtain ⟨keys, hgroup⟩ := ConditionGroup.isKeys_iff.mp hkeys
    refine ⟨keys, hgroup.symm, fun name hname =>
      ⟨parse_below_keys hpath hlist hconditions hgroup.symm hname, ?_⟩⟩
    intro s owner r leaves hrow hleaves
    exact plan_add_below hpath hlist hconditions hgroup.symm hname hrow hleaves
  · exact fun name hname => parse_below_filter hpath hlist hconditions hkeys hname
  · exact fun child p hextends hchild =>
      withoutAxis_of_extends hpath hlist hconditions hkeys hextends hchild
  · intro history s r hr child hchild hrow hparent
    exact axis_of_parent hpath hlist hconditions hkeys (sound_after history) hr hchild hrow hparent

/-- A child below an element with two keys, which is given in another spelling, and
none below what passes for an element by a comparison. -/
theorem children_of_elements_of_two_keys :
    let owner : Owner := ⟨1, 1, "d", "o"⟩
    let request := Operation.request .readWrite
    let history := [request (.createDataspace "d"), request (.createOwner ⟨1, "d"⟩ "o"),
      request (.write owner (.store [.leafless "/a[@k='1' and @n=2]"])),
      request (.write owner (.addList "/" [.leafless "/a[@x>3]"]))]
    let s := Store.empty.after history
    let element := "/a[ @k = \"1\" and @n=2 ]"
    s.rows.map Row.path = ["/a[@k='1' and @n=2]", "/a[@x>3]"]
      ∧ namesListElement element = true ∧ namesListElement "/a[@x>3]" = true
      ∧ (∃ change, Write.plan s owner (.add element [.leafless (element ++ "/" ++ "m:c")])
        = .ok change)
      ∧ ∃ e, Query.parse ("/a[@x>3]" ++ "/" ++ "m:c") = .error e := by
  intro owner request history s element
  let keyed : ConditionGroup := KeyGroup.toConditions ⟨⟨"k", .text "1"⟩, [⟨"n", .integer 2⟩]⟩
  let filter : ConditionGroup := ⟨⟨"x", .greater, .integer 3⟩, []⟩
  let top (g : ConditionGroup) : Query := ⟨.absolute, [], "a", .filtered (some g) none, none⟩
  have hname : IsName "m:c".toList :=
    .inr ⟨['m'], ['c'], ⟨rfl, by simp⟩, ⟨rfl, by simp⟩, rfl⟩
  obtain ⟨hrows, helement, hfilter, hrow⟩ :
      s.rows.map Row.path = ["/a[@k='1' and @n=2]", "/a[@x>3]"]
        ∧ (Query.parse element).toOption = some (top keyed)
        ∧ (Query.parse "/a[@x>3]").toOption = some (top filter)
        ∧ (s.rowNamed owner element).toOption.isSome = true := by
    decide +kernel
  rw [toOption_eq_some_iff] at helement hfilter
  obtain ⟨r, hr⟩ := Option.isSome_iff_exists.mp hrow
  have hkeys : keyed.IsKeys := ConditionGroup.isKeys_iff.mpr ⟨_, rfl⟩
  have hnokeys : ¬filter.IsKeys := fun h => by cases h.1
  obtain ⟨hnames, -, -, hbelow⟩ := children_of_elements element
  obtain ⟨keys, -, hchildren⟩ := (hbelow _ _ helement rfl rfl).1 hkeys
  obtain ⟨hnames', -, -, hbelow'⟩ := children_of_elements "/a[@x>3]"
  have hnone := ((hbelow' _ _ hfilter rfl rfl).2 hnokeys).1 "m:c" hname
  exact ⟨hrows, hnames.mpr ⟨_, _, helement, rfl, rfl, rfl⟩,
    hnames'.mpr ⟨_, _, hfilter, rfl, rfl, rfl⟩,
    ⟨_, (hchildren "m:c" hname).2 s owner r [] (toOption_eq_some_iff.mp hr) rfl⟩, _, hnone⟩

/-- A comparison passes for the key of an element, which is stored as one, and no child
can be stored below it. -/
theorem childless_element :
    let owner : Owner := ⟨1, 1, "d", "o"⟩
    let request := Operation.request .readWrite
    let history := [request (.createDataspace "d"), request (.createOwner ⟨1, "d"⟩ "o")]
    let s := Store.empty.after history
    let added := s.write .readWrite owner (.addList "/" [.leafless "/a[@x>3]"])
    namesListElement "/a[@x>3]" = true
      ∧ (Query.parse "/a[@x>3]").toOption.map Query.conditions
        = some (some ⟨⟨"x", .greater, .integer 3⟩, []⟩)
      ∧ added.2 = .ok { inserted := 1 } ∧ added.1.rows.map Row.path = ["/a[@x>3]"]
      ∧ (Query.parse "/a[@x>3]/b").toOption = none
      ∧ (added.1.write .readWrite owner (.add "/a[@x>3]" [.leafless "/a[@x>3]/b"])).2.toOption
        = none := by
  intro owner request history s added
  obtain ⟨hnames, hconditions, hadded, hrows, hparse, hrefused⟩ :
      namesListElement "/a[@x>3]" = true
        ∧ (Query.parse "/a[@x>3]").toOption.map Query.conditions
          = some (some ⟨⟨"x", .greater, .integer 3⟩, []⟩)
        ∧ added.2.toOption = some { inserted := 1 } ∧ added.1.rows.map Row.path = ["/a[@x>3]"]
        ∧ (Query.parse "/a[@x>3]/b").toOption = none
        ∧ (added.1.write .readWrite owner (.add "/a[@x>3]" [.leafless "/a[@x>3]/b"])).2.toOption
          = none := by
    decide +kernel
  exact ⟨hnames, hconditions, toOption_eq_some_iff.mp hadded, hrows, hparse, hrefused⟩

end DataTree
