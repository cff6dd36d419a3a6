import DataTree.Proofs.Path.Matching

/-!
# Paths that go into a list

The elements of a list are told from other paths by the start of their texts:
the address of the list and a bracket.  Such a text is read step by step, and
the bracket can only open a predicate of the step that is reached, so a path
starts so exactly if it goes the way to the list and has a predicate on the
step there.  What comes behind that predicate is not asked for: it may be
others, further steps, or an axis.

## Main definitions

* `Query.GoesInto` — whether a path goes the way to a list and has a predicate
  there.

## Main results

* `startsWith_lead_iff` — the paths whose texts start like those of elements.
* `address_eq_iff` — the elements of lists among them that are elements of the
  same one.
-/

namespace DataTree.Path

open DataTree.Text

/-- Whether the path `p` goes into the list that `q` names an element of: from
the roots, by the same steps, to a step of the name of the list that has a
predicate.  More predicates and more steps may follow, and an axis. -/
def Query.GoesInto (p q : Query) : Prop :=
  p.anchor = .absolute ∧ ∃ predicate more behind,
    p.writtenSteps.toList = q.parents.map Step.written ++ ⟨q.name, predicate :: more⟩ :: behind

theorem Query.namesListElement_iff {q : Query} :
    q.namesListElement = true ↔ q.anchor = .absolute ∧ q.ancestor = none
      ∧ ∃ g, q.selection = .filtered (some g) none := by
  obtain ⟨anchor, parents, name, selection, ancestor⟩ := q
  cases selection with
  | leafText keys wanted => simp [namesListElement, leafText, conditions]
  | filtered conditions contains =>
      cases conditions <;> cases contains <;>
        simp [namesListElement, leafText, Query.conditions, Query.contains, isAbsolute]

/-- The steps of a path without other filters than conditions. -/
theorem toList_writtenSteps {q : Query} {g : ConditionGroup}
    (h : q.selection = .filtered (some g) none) :
    q.writtenSteps.toList = q.parents.map Step.written ++ [⟨q.name, [.conditions g]⟩] := by
  rw [Query.writtenSteps, h]
  rfl

/-- An element of a list that goes into another is not above its elements. -/
theorem length_parents_le {p q : Query} (helement : p.namesListElement = true)
    (hinto : p.GoesInto q) : q.parents.length ≤ p.parents.length := by
  obtain ⟨-, -, g, hselection⟩ := Query.namesListElement_iff.mp helement
  obtain ⟨-, predicate, more, behind, hsteps⟩ := hinto
  rw [toList_writtenSteps hselection] at hsteps
  have hlength := congrArg List.length hsteps
  simp only [List.length_append, List.length_map, List.length_cons, List.length_nil] at hlength
  omega

/-! ## What stands behind a slash -/

/-- An axis is not taken for a step, of whose text only the name is known. -/
theorem axisChars_ne {axis : Option (Trail WrittenStep)} {name : String} {x : List Char}
    (hname : IsName name.toList) (hx : NotBefore continuesName x) :
    axisChars axis ≠ '/' :: (name.toList ++ x) := by
  cases axis with
  | none => exact fun h => by cases h
  | some t =>
      intro h
      have htext : axisLead ++ t.chars = name.toList ++ x := (List.cons.inj h).2
      have hread := readName_append hname hx
      have hlead : readName (axisLead ++ t.chars) = .ok ("ancestor", ':' :: ':' :: t.chars) := rfl
      rw [← htext, hlead] at hread
      obtain ⟨-, rfl⟩ := Prod.mk.inj (Except.ok.inj hread)
      have hcolon : continuesName ':' = false := hx ':' rfl
      revert hcolon
      decide

theorem endsStep_slashed_axis (steps : List WrittenStep) (axis : Option (Trail WrittenStep)) :
    EndsStep (slashed steps ++ axisChars axis) := by
  cases steps with
  | cons s steps => exact endsStep_slash _
  | nil =>
      cases axis with
      | none => exact fun c hc => by cases hc
      | some t => exact endsStep_slash _

theorem endsStep_slashed_slash (steps : List WrittenStep) (x : List Char) :
    EndsStep (slashed steps ++ '/' :: x) := by
  cases steps with
  | nil => exact endsStep_slash x
  | cons s steps => exact endsStep_slash _

/-- The name of a step and what stands behind it. -/
theorem name_of_stepAs {s : WrittenStep} {x : List Char} (hs : StepAs s s.chars)
    (hx : EndsStep x) : IsName s.name.toList
      ∧ NotBefore continuesName (s.predicates.flatMap Predicate.chars ++ x) := by
  obtain ⟨w, hname, hpredicates, -⟩ := hs
  exact ⟨hname, predicates_notBefore (predicatesAs_chars hpredicates) hx⟩

theorem notBefore_bracket (x : List Char) : NotBefore continuesName ('[' :: x) :=
  notBefore_append (w := ['[']) rfl (by decide) x

/-- A step that starts with a name and a bracket has that name and a predicate. -/
theorem exists_of_name_bracket {s : WrittenStep} {name : String} {x rest : List Char}
    (hs : StepAs s s.chars) (hname : IsName name.toList) (hx : EndsStep x)
    (h : s.chars ++ x = name.toList ++ '[' :: rest) :
    ∃ predicate more, s = ⟨name, predicate :: more⟩ := by
  obtain ⟨hsname, hbefore⟩ := name_of_stepAs hs hx
  have hread := readName_append hsname hbefore
  rw [← List.append_assoc, ← WrittenStep.chars, h,
    readName_append hname (notBefore_bracket rest)] at hread
  obtain ⟨hsame, hrest⟩ := Prod.mk.inj (Except.ok.inj hread)
  obtain ⟨_, predicates⟩ := s
  cases predicates with
  | nil => exact absurd hrest.symm (ne_of_endsStep (w := ['[']) rfl hx)
  | cons predicate more => exact ⟨predicate, more, by rw [hsame]⟩

/-- Steps whose text starts with the way to a list, its name and a bracket. -/
theorem exists_of_slashed_lead {steps parents : List WrittenStep} {name : String}
    {axis : Option (Trail WrittenStep)} {rest : List Char}
    (hsteps : ∀ s ∈ steps, StepAs s s.chars) (hparents : ∀ t ∈ parents, StepAs t t.chars)
    (hname : IsName name.toList)
    (h : slashed steps ++ axisChars axis
      = slashed parents ++ '/' :: (name.toList ++ '[' :: rest)) :
    ∃ predicate more behind, steps = parents ++ ⟨name, predicate :: more⟩ :: behind := by
  induction parents generalizing steps with
  | nil =>
      cases steps with
      | nil => exact absurd h (axisChars_ne hname (notBefore_bracket rest))
      | cons s steps =>
          have hs := (List.forall_mem_cons.mp hsteps).1
          have hchars : s.chars ++ (slashed steps ++ axisChars axis)
              = name.toList ++ '[' :: rest := by
            simpa using h
          obtain ⟨predicate, more, rfl⟩ :=
            exists_of_name_bracket hs hname (endsStep_slashed_axis steps axis) hchars
          exact ⟨predicate, more, steps, rfl⟩
  | cons t parents ih =>
      obtain ⟨ht, hway⟩ := List.forall_mem_cons.mp hparents
      let behind := slashed parents ++ '/' :: (name.toList ++ '[' :: rest)
      have hbehind : EndsStep behind := endsStep_slashed_slash parents _
      cases steps with
      | nil =>
          obtain ⟨htname, hbefore⟩ := name_of_stepAs ht hbehind
          have haxis : axisChars axis
              = '/' :: (t.name.toList ++ (t.predicates.flatMap Predicate.chars ++ behind)) := by
            simpa [WrittenStep.chars, behind] using h
          exact absurd haxis (axisChars_ne htname hbefore)
      | cons s steps =>
          obtain ⟨hs, hsteps⟩ := List.forall_mem_cons.mp hsteps
          have hchars : s.chars ++ (slashed steps ++ axisChars axis) = t.chars ++ behind := by
            simpa [behind] using h
          obtain ⟨rfl, hrest⟩ :=
            step_append_inj hs ht (endsStep_slashed_axis steps axis) hbehind hchars
          obtain ⟨predicate, more, behind, rfl⟩ := ih hsteps hway hrest
          exact ⟨predicate, more, behind, rfl⟩

/-! ## Texts that start like those of elements -/

section

variable {path element : String} {p q : Query}

/-- The steps to a list, and its name. -/
theorem stepAs_of_element (hq : Query.parse element = .ok q) (hlist : q.namesListElement = true) :
    (∀ t ∈ q.parents.map Step.written, StepAs t t.chars) ∧ IsName q.name.toList := by
  obtain ⟨-, -, g, hselection⟩ := Query.namesListElement_iff.mp hlist
  have hsteps := stepAs_of_parse hq
  rw [toList_writtenSteps hselection] at hsteps
  obtain ⟨hparents, hlast⟩ := List.forall_mem_append.mp hsteps
  obtain ⟨_, hname, -⟩ := List.forall_mem_singleton.mp hlast
  exact ⟨hparents, hname⟩

/-- What the texts of elements start with. -/
theorem lead_eq_slashed (hlist : q.namesListElement = true) : (q.address ++ "[").toList
      = slashed (q.parents.map Step.written) ++ '/' :: (q.name.toList ++ ['[']) := by
  obtain ⟨hanchor, -, g, hselection⟩ := Query.namesListElement_iff.mp hlist
  have htarget : (q.target.map Step.written).toList
      = q.parents.map Step.written ++ [⟨q.name, []⟩] := by
    rw [Query.target, Query.keys, hselection]
    rfl
  have hslashed := slashed_target q
  rw [htarget, slashed_append] at hslashed
  rw [String.toList_append, Query.address, String.toList_ofList, Query.addressChars, hanchor]
  show '/' :: stepsChars q.target.toList ++ ['['] = _
  rw [← hslashed]
  simp [WrittenStep.chars]

/-- The first name on the way to a list, or its own, stands behind one slash. -/
theorem exists_nameStart_of_lead (hq : Query.parse element = .ok q)
    (hlist : q.namesListElement = true) : ∃ c cs, (q.address ++ "[").toList = '/' :: c :: cs
      ∧ isNameStart c = true := by
  obtain ⟨hparents, hname⟩ := stepAs_of_element hq hlist
  rw [lead_eq_slashed hlist]
  cases hway : q.parents.map Step.written with
  | nil =>
      have hlast : StepAs ⟨q.name, []⟩ q.name.toList := ⟨[], hname, .nil, by simp⟩
      obtain ⟨c, hc, hstart⟩ := steps_head (.last hlast)
      obtain ⟨cs, hcs⟩ := List.head?_eq_some_iff.mp hc
      exact ⟨c, cs ++ ['['], by simp [hcs], hstart⟩
  | cons t parents =>
      obtain ⟨c, hc, hstart⟩ := steps_head (.last (hparents t (by simp [hway])))
      obtain ⟨cs, hcs⟩ := List.head?_eq_some_iff.mp hc
      exact ⟨c, _, by simp [hcs]; rfl, hstart⟩

/-- No path at any depth starts like an element. -/
theorem absolute_of_startsWith (hq : Query.parse element = .ok q)
    (hlist : q.namesListElement = true) {rest : List Char}
    (h : p.normalized.toList = (q.address ++ "[").toList ++ rest) : p.anchor = .absolute := by
  obtain ⟨c, cs, hfirst, hstart⟩ := exists_nameStart_of_lead hq hlist
  cases hanchor : p.anchor with
  | absolute => rfl
  | descendant =>
      rw [Query.normalized, String.toList_ofList, Query.chars, Query.addressChars, hanchor, hfirst]
        at h
      have hslash : '/' = c := (List.cons.inj (List.cons.inj h).2).1
      rw [← hslash] at hstart
      cases hstart

variable (hp : Query.parse path = .ok p) (hq : Query.parse element = .ok q)
  (hlist : q.namesListElement = true)

include hp hq hlist

/-- A path starts like the elements of a list exactly if it goes into the list. -/
theorem startsWith_lead_iff :
    p.normalized.startsWith (q.address ++ "[") = true ↔ p.GoesInto q := by
  rw [String.startsWith_string_iff]
  constructor
  · rintro ⟨rest, hrest⟩
    have hanchor := absolute_of_startsWith hq hlist hrest.symm
    obtain ⟨hparents, hname⟩ := stepAs_of_element hq hlist
    rw [normalized_eq_of_absolute hanchor, lead_eq_slashed hlist] at hrest
    have hsteps : slashed p.writtenSteps.toList ++ axisChars p.written.ancestor
        = slashed (q.parents.map Step.written) ++ '/' :: (q.name.toList ++ '[' :: rest) := by
      simpa using hrest.symm
    exact ⟨hanchor, exists_of_slashed_lead (stepAs_of_parse hp) hparents hname hsteps⟩
  · rintro ⟨hanchor, predicate, more, behind, hsteps⟩
    obtain ⟨cs, hcs⟩ := List.head?_eq_some_iff.mp (head_predicate predicate)
    rw [normalized_eq_of_absolute hanchor, lead_eq_slashed hlist, hsteps]
    refine ⟨cs ++ (more.flatMap Predicate.chars ++ (slashed behind
      ++ axisChars p.written.ancestor)), ?_⟩
    simp [WrittenStep.chars, hcs]

/-- An element goes into its list. -/
theorem goesInto_of_address (helement : p.namesListElement = true)
    (haddress : p.address = q.address) : p.GoesInto q := by
  have hself : p.GoesInto p := by
    obtain ⟨hanchor, -, g, hselection⟩ := Query.namesListElement_iff.mp helement
    refine ⟨hanchor, .conditions g, [], [], ?_⟩
    rw [toList_writtenSteps hselection]
  have hstarts := (startsWith_lead_iff hp hp helement).mpr hself
  rw [haddress] at hstarts
  exact (startsWith_lead_iff hp hq hlist).mp hstarts

/-- Of the elements of lists that go into a list, those are its own that have
as many steps. -/
theorem address_eq_iff (helement : p.namesListElement = true) :
    p.address = q.address ↔ p.GoesInto q ∧ p.parents.length = q.parents.length := by
  constructor
  · intro haddress
    have hinto := goesInto_of_address hp hq hlist helement haddress
    have hback := goesInto_of_address hq hp helement hlist haddress.symm
    have hle := length_parents_le helement hinto
    have hge := length_parents_le hlist hback
    exact ⟨hinto, by omega⟩
  · rintro ⟨⟨-, predicate, more, behind, hsteps⟩, hlength⟩
    obtain ⟨-, -, g, hselection⟩ := Query.namesListElement_iff.mp helement
    rw [toList_writtenSteps hselection] at hsteps
    obtain ⟨hparents, hlast⟩ := List.append_inj hsteps (by simpa using hlength)
    have hname : p.name = q.name := congrArg WrittenStep.name (List.cons.inj hlast).1
    have hlead : (p.address ++ "[").toList = (q.address ++ "[").toList := by
      rw [lead_eq_slashed helement, lead_eq_slashed hlist, hparents, hname]
    rw [String.toList_append, String.toList_append] at hlead
    exact String.toList_inj.mp (List.append_cancel_right hlead)

end

end DataTree.Path
