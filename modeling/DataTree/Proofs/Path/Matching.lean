import DataTree.Proofs.Path.Nesting
import DataTree.Proofs.Path.Quotes
import DataTree.Proofs.Path.Scanning

/-!
# What a matched path is

Stored paths are matched as texts, and a path may hold any text in the values
of its keys.  Still a match tells its steps.  A match ends where the path ends,
with no quote open, and what is matched closes the quotes it opens, so no quote
is open where it starts; it starts with a slash, and slashes outside of quotes
stand between steps.  From there the text is read step by step, and what is left
over is one key predicate or nothing.

## Main definitions

* `Query.isLocation` — whether a query names nodes by steps and conditions alone.
* `WrittenStep.IsAt` — a step is another one, up to one predicate more.
* `Trail.LeadsTo`, `Trail.Ends` — the steps of a path, and its last steps, up to
  one predicate more on the last of them.

## Main results

* `exists_front_of_match` — a match starts between two steps and has theirs.
* `steps_of_pathMatches` — a path matches an address exactly if it has its steps,
  and a name at any depth only if it ends in its steps.
-/

namespace DataTree.Path

open DataTree.Text

/-! ## Steps of a path -/

/-- Whether a query names nodes by steps and conditions alone: from the roots,
without functions and without an axis. -/
def Query.isLocation (q : Query) : Bool :=
  q.isAbsolute && q.leafText.isNone && q.contains.isNone && q.ancestor.isNone

/-- Whether `s` is the step `base`, up to one predicate more at its end. -/
def WrittenStep.IsAt (base s : WrittenStep) : Prop :=
  s = base ∨ ∃ g, s = ⟨base.name, base.predicates ++ [.conditions g]⟩

/-- Whether a path has the steps of `t`, up to one predicate more on the last of
them. -/
def Trail.LeadsTo (t path : Trail WrittenStep) : Prop :=
  path.parents = t.parents ∧ t.last.IsAt path.last

/-- Whether the last steps of a path are those of `t`, up to one predicate more on
the last of them. -/
def Trail.Ends (t path : Trail WrittenStep) : Prop :=
  ∃ front, path.parents = front ++ t.parents ∧ t.last.IsAt path.last

theorem Query.isLocation_iff {q : Query} :
    q.isLocation = true ↔ q.anchor = .absolute ∧ q.leafText = none ∧ q.contains = none
      ∧ q.ancestor = none := by
  simp [isLocation, isAbsolute, and_assoc]

theorem stepAs_of_stepsAs {t : Trail WrittenStep} {w : List Char} (h : StepsAs t w) :
    ∀ s ∈ t.toList, StepAs s s.chars := by
  induction h with
  | last hs => exact List.forall_mem_singleton.mpr (stepAs_chars hs)
  | cons hs _ ih => exact List.forall_mem_cons.mpr ⟨stepAs_chars hs, ih⟩

theorem Step.isConditions_written (s : Step) :
    ∀ p ∈ s.written.predicates, p.isConditions = true := by
  intro p hp
  obtain ⟨g, -, rfl⟩ := List.mem_map.mp hp
  rfl

section

variable {path : String} {q : Query} (h : Query.parse path = .ok q)

include h

/-- The steps of a query that was read can be read. -/
theorem stepAs_of_parse : ∀ s ∈ q.writtenSteps.toList, StepAs s s.chars := by
  obtain ⟨_, _, hsteps, -⟩ := spelled_of_parse h
  exact stepAs_of_stepsAs hsteps

/-- Only conditions stand on the steps of a location. -/
theorem keyed_of_isLocation (hlocation : q.isLocation = true) :
    ∀ s ∈ q.writtenSteps.toList, s.Keyed := by
  intro s hs
  refine ⟨stepAs_of_parse h s hs, ?_⟩
  obtain ⟨-, hleaf, hcontains, -⟩ := Query.isLocation_iff.mp hlocation
  rcases List.mem_append.mp hs with hs | hs
  · obtain ⟨steps, hsteps⟩ := writtenSteps_parents q
    rw [hsteps] at hs
    obtain ⟨s, -, rfl⟩ := List.mem_map.mp hs
    exact s.isConditions_written
  · obtain rfl := List.mem_singleton.mp hs
    obtain ⟨anchor, parents, name, selection, ancestor⟩ := q
    cases selection with
    | leafText keys wanted => cases hleaf
    | filtered conditions contains =>
        obtain rfl : contains = none := hcontains
        cases conditions with
        | none => exact fun p hp => absurd hp List.not_mem_nil
        | some g => exact List.forall_mem_singleton.mpr rfl

/-- Only keys stand on the steps of an address. -/
theorem keyed_target : ∀ s ∈ (q.target.map Step.written).toList, s.Keyed := by
  have hall := stepAs_of_parse h
  intro s hs
  constructor
  · obtain ⟨anchor, parents, name, selection, ancestor⟩ := q
    cases selection with
    | leafText keys wanted =>
        apply hall
        refine List.mem_append_left _ ?_
        simpa [Trail.toList, Trail.map, Query.target, Query.keys, Query.writtenSteps] using hs
    | filtered conditions contains =>
        obtain ⟨hparents, hlast⟩ := List.forall_mem_append.mp hall
        obtain ⟨_, hname, -⟩ := List.forall_mem_singleton.mp hlast
        rcases List.mem_append.mp hs with hs | hs
        · exact hparents s hs
        · obtain rfl := List.mem_singleton.mp hs
          exact stepAs_chars ⟨[], hname, .nil, rfl⟩
  · rw [Trail.toList_map] at hs
    obtain ⟨s, -, rfl⟩ := List.mem_map.mp hs
    exact s.isConditions_written

end

/-! ## Steps behind slashes -/

/-- Steps, each behind a slash. -/
def slashed (steps : List WrittenStep) : List Char := steps.flatMap fun s => '/' :: s.chars

@[simp] theorem slashed_nil : slashed [] = [] := rfl

@[simp] theorem slashed_cons (s : WrittenStep) (steps : List WrittenStep) :
    slashed (s :: steps) = '/' :: (s.chars ++ slashed steps) := rfl

@[simp] theorem slashed_append (xs ys : List WrittenStep) :
    slashed (xs ++ ys) = slashed xs ++ slashed ys := List.flatMap_append

theorem slashed_toList (t : Trail WrittenStep) : slashed t.toList = '/' :: t.chars := by
  obtain ⟨parents, last⟩ := t
  induction parents with
  | nil => simp [Trail.toList, Trail.chars, List.intercalate]
  | cons s parents ih =>
      have hchars :
          Trail.chars ⟨s :: parents, last⟩ = s.chars ++ '/' :: Trail.chars ⟨parents, last⟩ :=
        Trail.chars_cons s ⟨parents, last⟩
      rw [hchars, ← ih]
      rfl

/-- The text of a path from the roots: its steps and its axis. -/
theorem normalized_eq_of_absolute {q : Query} (h : q.anchor = .absolute) :
    q.normalized.toList = slashed q.writtenSteps.toList ++ axisChars q.written.ancestor := by
  rw [Query.normalized, String.toList_ofList, ← chars_written, slashed_toList]
  simp [Expression.chars, Query.written, h, Anchor.chars]

/-- The text of a location. -/
theorem normalized_eq_slashed {q : Query} (h : q.isLocation = true) :
    q.normalized.toList = slashed q.writtenSteps.toList := by
  obtain ⟨hanchor, -, -, haxis⟩ := Query.isLocation_iff.mp h
  rw [normalized_eq_of_absolute hanchor]
  simp [Query.written, haxis, axisChars]

/-- The text of an address without its anchor. -/
theorem slashed_target (q : Query) :
    slashed (q.target.map Step.written).toList = '/' :: stepsChars q.target.toList := by
  rw [slashed_toList, Trail.chars, Trail.toList_map, map_chars_written, stepsChars]

theorem name_of_descendantName {q : Query} {name : String} (h : q.descendantName = some name) :
    name.toList = stepsChars q.target.toList := by
  unfold Query.descendantName at h
  split at h
  · cases h
  · cases h
    exact String.toList_ofList

theorem endsStep_slashed (steps : List WrittenStep) : EndsStep (slashed steps) := by
  cases steps with
  | nil => intro c hc; cases hc
  | cons s steps => exact endsStep_slash _

theorem quoteAfter_slashed {steps : List WrittenStep} (h : ∀ s ∈ steps, s.Keyed) :
    quoteAfter none (slashed steps) = none := by
  induction steps with
  | nil => rfl
  | cons s steps ih =>
      obtain ⟨hs, hsteps⟩ := List.forall_mem_cons.mp h
      have hslash : quoteStep none '/' = none := rfl
      rw [slashed_cons, quoteAfter_cons, hslash, quoteAfter_append, hs.sealed.closed]
      exact ih hsteps

/-- A slash outside of quotes stands in front of a step. -/
theorem exists_of_slashed_eq {steps : List WrittenStep} (h : ∀ s ∈ steps, s.Keyed)
    {front rest : List Char} (hsplit : slashed steps = front ++ '/' :: rest)
    (hfront : quoteAfter none front = none) :
    ∃ before behind, steps = before ++ behind ∧ slashed before = front
      ∧ slashed behind = '/' :: rest := by
  induction steps generalizing front with
  | nil => cases front <;> cases hsplit
  | cons s steps ih =>
      obtain ⟨hs, hsteps⟩ := List.forall_mem_cons.mp h
      cases front with
      | nil => exact ⟨[], s :: steps, rfl, rfl, hsplit⟩
      | cons c front =>
          rw [slashed_cons, List.cons_append, List.cons.injEq] at hsplit
          obtain ⟨rfl, hsplit⟩ := hsplit
          have hfront : quoteAfter none front = none := hfront
          have hbehind : ∀ more, front = s.chars ++ more → slashed steps = more ++ '/' :: rest →
              ∃ before behind, s :: steps = before ++ behind ∧ slashed before = '/' :: front
                ∧ slashed behind = '/' :: rest := by
            intro more hmore hsplit
            rw [hmore, quoteAfter_append, hs.sealed.closed] at hfront
            obtain ⟨before, behind, hsteps, hbefore, hbehind⟩ := ih hsteps hsplit hfront
            refine ⟨s :: before, behind, by rw [hsteps, List.cons_append], ?_, hbehind⟩
            rw [slashed_cons, hbefore, hmore]
          rcases List.append_eq_append_iff.mp hsplit with
            ⟨more, hmore, hrest⟩ | ⟨more, hmore, hrest⟩
          · exact hbehind more hmore hrest
          · cases more with
            | nil => exact hbehind [] (by simpa using hmore.symm) hrest.symm
            | cons d more =>
                rw [List.cons_append, List.cons.injEq] at hrest
                obtain ⟨rfl, -⟩ := hrest
                have hsealed := hs.sealed
                rw [hmore] at hsealed
                exact absurd hfront hsealed.quoteAfter_ne_none

/-! ## Reading a match -/

/-- What may be left over behind the steps that a path is matched against. -/
def Leftover (key : List Char) : Prop := key = [] ∨ isKeyPredicate key = true

theorem Leftover.closed {key : List Char} (h : Leftover key) : quoteAfter none key = none := by
  rcases h with rfl | hkey
  · rfl
  · exact quoteAfter_of_isKeyPredicate hkey

/-- A step is told from what follows it. -/
theorem step_append_inj {s t : WrittenStep} {x y : List Char} (hs : StepAs s s.chars)
    (ht : StepAs t t.chars) (hx : EndsStep x) (hy : EndsStep y)
    (h : s.chars ++ x = t.chars ++ y) : s = t ∧ x = y := by
  have hread := readStep_append hs hx
  rw [h, readStep_append ht hy] at hread
  cases hread
  exact ⟨rfl, rfl⟩

theorem head_predicate (p : Predicate) : p.chars.head? = some '[' := by
  cases p <;> rfl

/-- Nothing that ends a step starts like a predicate. -/
theorem ne_of_endsStep {x w rest : List Char} (hw : w.head? = some '[') (hx : EndsStep x) :
    x ≠ w ++ rest := by
  rintro rfl
  have hslash : '[' = '/' := hx '[' (head?_append_of_head? hw rest)
  cases hslash

/-- Predicates that start with others and go on with a key predicate are those and
one more. -/
theorem predicates_of_append {ps qs : List Predicate} {x key : List Char}
    (hps : ∀ p ∈ ps, PredicateAs p p.chars) (hkeyed : ∀ p ∈ ps, p.isConditions = true)
    (hqs : ∀ q ∈ qs, PredicateAs q q.chars) (hx : EndsStep x) (hkey : isKeyPredicate key = true)
    (h : ps.flatMap Predicate.chars ++ x = qs.flatMap Predicate.chars ++ key) :
    (∃ g, ps = qs ++ [.conditions g]) ∧ x = [] := by
  induction qs generalizing ps with
  | nil =>
      rw [List.flatMap_nil, List.nil_append] at h
      cases ps with
      | nil =>
          obtain ⟨cs, rfl, -⟩ := exists_of_isKeyPredicate hkey
          exact absurd h (ne_of_endsStep (w := ['[']) rfl hx)
      | cons p ps =>
          obtain ⟨g, rfl⟩ := exists_of_isConditions (hkeyed p List.mem_cons_self)
          have hblock := isKeyPredicate_bracketed (hps _ List.mem_cons_self)
          rw [List.flatMap_cons, List.append_assoc, ← List.append_nil key] at h
          obtain ⟨-, hrest⟩ := isKeyPredicate_append_inj hblock hkey h
          obtain ⟨hnil, rfl⟩ := List.append_eq_nil_iff.mp hrest
          cases ps with
          | nil => exact ⟨⟨g, rfl⟩, rfl⟩
          | cons p ps =>
              have hhead := head?_append_of_head? (head_predicate p) (ps.flatMap Predicate.chars)
              rw [← List.flatMap_cons, hnil] at hhead
              cases hhead
  | cons q qs ih =>
      obtain ⟨hq, hqsRest⟩ := List.forall_mem_cons.mp hqs
      rw [List.flatMap_cons, List.append_assoc] at h
      cases ps with
      | nil => exact absurd h (ne_of_endsStep (head_predicate q) hx)
      | cons p ps =>
          obtain ⟨hp, hpsRest⟩ := List.forall_mem_cons.mp hps
          obtain ⟨-, hkeyedRest⟩ := List.forall_mem_cons.mp hkeyed
          rw [List.flatMap_cons, List.append_assoc] at h
          have hread := readPredicate_append hp (ps.flatMap Predicate.chars ++ x)
          rw [h, readPredicate_append hq] at hread
          obtain ⟨rfl, hrest⟩ := Prod.mk.inj (Except.ok.inj hread)
          obtain ⟨⟨g, rfl⟩, hx⟩ := ih hpsRest hkeyedRest hqsRest hrest.symm
          exact ⟨⟨g, rfl⟩, hx⟩

/-- A step that starts with another one and goes on with what is left over is
that step, up to one predicate more. -/
theorem isAt_of_append {s t : WrittenStep} {x key : List Char} (hs : s.Keyed) (ht : t.Keyed)
    (hx : EndsStep x) (hkey : Leftover key) (h : s.chars ++ x = t.chars ++ key) :
    t.IsAt s ∧ x = [] := by
  rcases hkey with rfl | hkey
  · have hend : EndsStep [] := fun c hc => by cases hc
    obtain ⟨rfl, rfl⟩ := step_append_inj hs.spelled ht.spelled hx hend h
    exact ⟨.inl rfl, rfl⟩
  · have hbefore : NotBefore continuesName (t.predicates.flatMap Predicate.chars ++ key) := by
      cases t.predicates with
      | nil =>
          obtain ⟨cs, rfl, -⟩ := exists_of_isKeyPredicate hkey
          exact notBefore_append (w := ['[']) rfl (by decide) _
      | cons p ps =>
          rw [List.flatMap_cons, List.append_assoc]
          exact notBefore_append (head_predicate p) (by decide) _
    obtain ⟨w, hw⟩ := predicatesAs_iff.mpr hs.predicates
    have hread := readName_append hs.isName (predicates_notBefore (predicatesAs_chars hw) hx)
    rw [← List.append_assoc, ← WrittenStep.chars, h, WrittenStep.chars, List.append_assoc,
      readName_append ht.isName hbefore] at hread
    obtain ⟨hname, hrest⟩ := Prod.mk.inj (Except.ok.inj hread)
    obtain ⟨⟨g, hg⟩, hx⟩ := predicates_of_append hs.predicates hs.conditions ht.predicates hx hkey
      hrest.symm
    refine ⟨.inr ⟨g, ?_⟩, hx⟩
    rw [hname, ← hg]

/-- Steps that start with others and go on with what is left over are those
steps, up to one predicate more on the last one. -/
theorem exists_of_slashed_append {steps parents : List WrittenStep} {last : WrittenStep}
    {key : List Char} (hsteps : ∀ s ∈ steps, s.Keyed) (hmatched : ∀ s ∈ parents ++ [last], s.Keyed)
    (hkey : Leftover key) (h : slashed steps = slashed (parents ++ [last]) ++ key) :
    ∃ s, steps = parents ++ [s] ∧ last.IsAt s := by
  induction parents generalizing steps with
  | nil =>
      cases steps with
      | nil => cases h
      | cons s steps =>
          obtain ⟨hs, -⟩ := List.forall_mem_cons.mp hsteps
          have hlast := List.forall_mem_singleton.mp hmatched
          have hchars : s.chars ++ slashed steps = last.chars ++ key := by simpa using h
          obtain ⟨hat, hnil⟩ := isAt_of_append hs hlast (endsStep_slashed steps) hkey hchars
          cases steps with
          | nil => exact ⟨s, rfl, hat⟩
          | cons s' steps => cases hnil
  | cons t parents ih =>
      cases steps with
      | nil => cases h
      | cons s steps =>
          obtain ⟨hs, hstepsRest⟩ := List.forall_mem_cons.mp hsteps
          obtain ⟨ht, hmatchedRest⟩ := List.forall_mem_cons.mp hmatched
          have hchars : s.chars ++ slashed steps
              = t.chars ++ (slashed (parents ++ [last]) ++ key) := by
            simpa using h
          have hend : EndsStep (slashed (parents ++ [last]) ++ key) := by
            cases parents with
            | nil => exact endsStep_slash _
            | cons t' parents => exact endsStep_slash _
          obtain ⟨rfl, hrest⟩ :=
            step_append_inj hs.spelled ht.spelled (endsStep_slashed steps) hend hchars
          obtain ⟨s', rfl, hat⟩ := ih hstepsRest hmatchedRest hrest
          exact ⟨s', rfl, hat⟩

/-! ## Matches -/

theorem Trail.toList_eq_append {α : Type} {p : Trail α} {parents : List α} {last : α}
    (h : p.toList = parents ++ [last]) : p.parents = parents ∧ p.last = last := by
  obtain ⟨hparents, hlast⟩ := List.append_inj' h rfl
  exact ⟨hparents, List.singleton_inj.mp hlast⟩

section

variable {p t : Trail WrittenStep} (hp : ∀ s ∈ p.toList, s.Keyed)

include hp

/-- What stands behind the steps that a path ends in. -/
theorem exists_key_of_isAt (h : t.last.IsAt p.last) :
    ∃ key, Leftover key ∧ slashed (t.parents ++ [p.last]) = slashed t.toList ++ key
      ∧ (key = [] ↔ p.last = t.last) := by
  rcases h with hsame | ⟨g, hmore⟩
  · exact ⟨[], .inl rfl, by rw [hsame, List.append_nil, Trail.toList], by simp [hsame]⟩
  · have hlast := hp p.last (List.mem_append_right _ (List.mem_singleton.mpr rfl))
    have hpred := hlast.predicates (.conditions g) (by simp [hmore])
    have hne : p.last ≠ t.last := by
      intro hsame
      have hpredicates := congrArg WrittenStep.predicates (hsame.symm.trans hmore)
      simp at hpredicates
    refine ⟨g.bracketed, .inr (isKeyPredicate_bracketed hpred), ?_, ?_⟩
    · simp [hmore, Trail.toList, WrittenStep.chars]
    · simp [hne, ConditionGroup.bracketed]

variable (ht : ∀ s ∈ t.toList, s.Keyed) {front key : List Char} (hkey : Leftover key)

include ht hkey

/-- A match starts between two steps and has the steps behind it. -/
theorem exists_front_of_match (h : slashed p.toList = front ++ (slashed t.toList ++ key)) :
    ∃ before, p.parents = before ++ t.parents ∧ t.last.IsAt p.last ∧ slashed before = front := by
  -- No quote is open behind the match, and the match leaves open what was open before it.
  have hfront : quoteAfter none front = none := by
    have hmatch : quoteAfter none (slashed t.toList ++ key) = none := by
      rw [quoteAfter_append, quoteAfter_slashed ht, hkey.closed]
    have hend : quoteAfter (quoteAfter none front) (slashed t.toList ++ key)
        = quoteAfter none (slashed t.toList ++ key) := by
      rw [hmatch, ← quoteAfter_append, ← h, quoteAfter_slashed hp]
    exact quoteAfter_injective (isQuote_none.after front) isQuote_none hend
  have hslash : slashed t.toList ++ key = '/' :: (t.chars ++ key) := by
    rw [slashed_toList, List.cons_append]
  rw [hslash] at h
  obtain ⟨before, behind, hall, hbefore, hbehind⟩ := exists_of_slashed_eq hp h hfront
  rw [← hslash] at hbehind
  have hbehindKeyed : ∀ s ∈ behind, s.Keyed := fun s hs =>
    hp s (hall ▸ List.mem_append_right before hs)
  obtain ⟨s, rfl, hat⟩ := exists_of_slashed_append hbehindKeyed ht hkey hbehind
  rw [← List.append_assoc] at hall
  obtain ⟨hparents, rfl⟩ := Trail.toList_eq_append hall
  exact ⟨before, hparents, hat, hbefore⟩

/-- A match at the front has all the steps of the path. -/
theorem leadsTo_of_match (h : slashed p.toList = slashed t.toList ++ key) : t.LeadsTo p := by
  have hfront : slashed p.toList = [] ++ (slashed t.toList ++ key) := h
  obtain ⟨before, hparents, hat, hbefore⟩ := exists_front_of_match hp ht hkey hfront
  cases before with
  | nil => exact ⟨hparents, hat⟩
  | cons s before => cases hbefore

end

theorem matchesAddress_iff_leftover {path address : List Char} :
    matchesAddress path address = true ↔ ∃ key, Leftover key ∧ path = address ++ key := by
  rw [matchesAddress_iff]
  constructor
  · rintro (rfl | ⟨key, hkey, rfl⟩)
    · exact ⟨[], .inl rfl, (List.append_nil _).symm⟩
    · exact ⟨key, .inr hkey, rfl⟩
  · rintro ⟨key, rfl | hkey, rfl⟩
    · exact .inl (List.append_nil _)
    · exact .inr ⟨key, hkey, rfl⟩

/-- A path matches a name at any depth if it ends in a slash and the name, or a scan
finds them in front of a key predicate that ends it. -/
theorem matchesAnywhere_iff {path name : List Char} :
    matchesAnywhere path name = true ↔ '/' :: name <:+ path
      ∨ ∃ scanned rest, ScansTo ('/' :: (name ++ ['[', '@'])) scanned
        ∧ isKeyPredicate ('[' :: '@' :: rest) = true ∧ path = scanned ++ rest := by
  unfold matchesAnywhere
  rw [Bool.or_eq_true, List.isSuffixOf_iff_suffix, List.any_eq_true]
  refine or_congr Iff.rfl ?_
  constructor
  · rintro ⟨rest, hrest, hkey⟩
    obtain ⟨scanned, hscan, rfl⟩ := mem_afterOccurrences_iff.mp hrest
    exact ⟨scanned, rest, hscan, hkey, rfl⟩
  · rintro ⟨scanned, rest, hscan, hkey, rfl⟩
    exact ⟨rest, mem_afterOccurrences_iff.mpr ⟨scanned, hscan, rfl⟩, hkey⟩

/-- What is matched stands in the path, in front of what is left over. -/
theorem exists_of_matchesAnywhere {path name : List Char} (h : matchesAnywhere path name = true) :
    ∃ front key, Leftover key ∧ path = front ++ ('/' :: name ++ key) := by
  rcases matchesAnywhere_iff.mp h with ⟨front, rfl⟩ | ⟨scanned, rest, hscan, hkey, rfl⟩
  · exact ⟨front, [], .inl rfl, by rw [List.append_nil]⟩
  · obtain ⟨front, rfl⟩ := hscan.isSuffix
    exact ⟨front, _, .inr hkey, by simp⟩

/-- A path matches an address exactly if it has the steps of the address, and a name
at any depth only if it ends in the steps of the name, either way up to one predicate
more on its last step. -/
theorem steps_of_pathMatches {path target : String} {p t : Query} (hp : Query.parse path = .ok p)
    (hlocation : p.isLocation = true) (ht : Query.parse target = .ok t) :
    (t.anchor = .absolute → (pathMatches p.normalized t.address false = true
        ↔ (t.target.map Step.written).LeadsTo p.writtenSteps))
      ∧ ∀ name, t.descendantName = some name → pathMatches p.normalized name true = true →
        (t.target.map Step.written).Ends p.writtenSteps := by
  have hpKeyed := keyed_of_isLocation hp hlocation
  have htKeyed := keyed_target ht
  have htext := normalized_eq_slashed hlocation
  constructor
  · intro hanchor
    have haddress : t.address.toList = slashed (t.target.map Step.written).toList := by
      rw [slashed_target, Query.address, String.toList_ofList, Query.addressChars, hanchor]
      rfl
    rw [pathMatches, if_neg Bool.false_ne_true, matchesAddress_iff_leftover, htext, haddress]
    constructor
    · rintro ⟨key, hkey, hmatch⟩
      exact leadsTo_of_match hpKeyed htKeyed hkey hmatch
    · rintro ⟨hparents, hat⟩
      obtain ⟨key, hkey, hmatch, -⟩ := exists_key_of_isAt hpKeyed hat
      exact ⟨key, hkey, by rw [← hmatch, ← hparents, Trail.toList]⟩
  · intro name hname hmatch
    have hchars : '/' :: name.toList = slashed (t.target.map Step.written).toList := by
      rw [slashed_target, name_of_descendantName hname]
    rw [pathMatches, if_pos rfl] at hmatch
    obtain ⟨front, key, hkey, hsplit⟩ := exists_of_matchesAnywhere hmatch
    rw [htext, hchars] at hsplit
    obtain ⟨before, hparents, hat, -⟩ := exists_front_of_match hpKeyed htKeyed hkey hsplit
    exact ⟨before, hparents, hat⟩

/-- The value of the key on `a` holds a step `b` with a key of its own: it is passed
over, and the step behind it is found. -/
theorem steps_of_pathMatches_of_quoted_step :
    ∃ p t u, Query.parse "/a[@k=\"/b[@k='1']\"]/b[@k='2']" = .ok p
      ∧ Query.parse "/a[@k=\"/b[@k='1']\"]/b" = .ok t ∧ Query.parse "//b[@k=3]" = .ok u
      ∧ (t.target.map Step.written).LeadsTo p.writtenSteps
      ∧ (u.target.map Step.written).Ends p.writtenSteps := by
  let steps : List Step := [⟨"a", [⟨⟨"k", .text "/b[@k='1']"⟩, []⟩]⟩]
  let p : Query := ⟨.absolute, steps, "b", .filtered (some ⟨⟨"k", .equal, .text "2"⟩, []⟩) none,
    none⟩
  let t : Query := ⟨.absolute, steps, "b", .filtered none none, none⟩
  let u : Query := ⟨.descendant, [], "b", .filtered (some ⟨⟨"k", .equal, .integer 3⟩, []⟩) none,
    none⟩
  have hp : (Query.parse "/a[@k=\"/b[@k='1']\"]/b[@k='2']").toOption = some p := by
    decide +kernel
  have ht : (Query.parse "/a[@k=\"/b[@k='1']\"]/b").toOption = some t := by
    decide +kernel
  have hu : (Query.parse "//b[@k=3]").toOption = some u := by
    decide +kernel
  have hmatchesAddress : pathMatches p.normalized t.address false = true := by decide +kernel
  have hmatchesName : pathMatches p.normalized "b" true = true := by decide +kernel
  rw [toOption_eq_some_iff] at hp ht hu
  exact ⟨p, t, u, hp, ht, hu, ((steps_of_pathMatches hp rfl ht).1 rfl).mp hmatchesAddress,
    (steps_of_pathMatches hp rfl hu).2 "b" (by decide +kernel) hmatchesName⟩

end DataTree.Path
