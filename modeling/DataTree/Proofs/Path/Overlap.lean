import DataTree.Proofs.Path.Matching

/-!
# Where a scan passes over a name

A path that ends in the steps of a name has the name in it once as steps, and
any number of times as text, in the values of its keys or, where lists nest, in
steps before.  Without a key behind the last step the end of the path is compared
and nothing can go wrong.  With one the name is scanned for from the left, and an
occurrence that overlaps the steps hides them.  So the path is matched exactly if
the scan gets to its steps, which it always does where the name does not overlap
itself, as no single name does.

## Main results

* `unbordered_lead` — a single name does not overlap itself.
* `matches_iff_scansTo` — which of the paths that end in the steps of a name are
  matched.
-/

namespace DataTree.Path

/-- What a name at any depth is scanned for. -/
def lead (name : String) : List Char := '/' :: (name.toList ++ ['[', '@'])

instance {name : String} {cs : List Char} : Decidable (ScansTo (lead name) cs) :=
  inferInstanceAs (Decidable (ScansTo ('/' :: _) cs))

theorem slash_descendantName {q : Query} {name : String} (h : q.descendantName = some name) :
    '/' :: name.toList = slashed (q.target.map Step.written).toList := by
  rw [slashed_target, name_of_descendantName h]

theorem lead_ne_nil (name : String) : lead name ≠ [] := List.cons_ne_nil _ _

/-- A single name does not overlap itself. -/
theorem unbordered_lead {target : String} {t : Query} (ht : Query.parse target = .ok t)
    {name : String} (hname : t.descendantName = some name) (hparents : t.parents = [])
    (hkeys : t.keys = []) : Unbordered (lead name) := by
  have htext : name.toList = t.name.toList := by
    rw [name_of_descendantName hname]
    simp [stepsChars, Query.target, Trail.toList, hparents, hkeys, Step.chars, List.intercalate]
  have hlast : (Step.written ⟨t.name, t.keys⟩).Keyed :=
    keyed_target ht _ (List.mem_append_right _ (List.mem_singleton.mpr rfl))
  refine unbordered_of_not_mem fun hmem => ?_
  rw [htext, List.mem_append] at hmem
  rcases hmem with hmem | hmem
  · cases isPlain_of_isName hlast.isName '/' hmem
  · revert hmem
    decide

section

variable {path target : String} {p t : Query} (hp : Query.parse path = .ok p)
  (hlocation : p.isLocation = true) (ht : Query.parse target = .ok t) {name : String}
  (hname : t.descendantName = some name) {front : List WrittenStep}
  (hparents : p.writtenSteps.parents = front ++ (t.target.map Step.written).parents)

include hp hlocation ht hname hparents

/-- The steps of a name stand at one place only. -/
theorem front_unique {front' key : List Char} (hkey : Leftover key)
    (h : p.normalized.toList = front' ++ ('/' :: name.toList ++ key)) : front' = slashed front := by
  rw [normalized_eq_slashed hlocation, slash_descendantName hname] at h
  obtain ⟨before, hbefore, -, hfront⟩ :=
    exists_front_of_match (keyed_of_isLocation hp hlocation) (keyed_target ht) hkey h
  rw [hparents] at hbefore
  rw [← hfront, List.append_cancel_right hbefore]

variable (hlast : (t.target.map Step.written).last.IsAt p.writtenSteps.last)

include hlast

/-- Of the paths that end in the steps of a name those are matched that have no key
behind them, and those where a scan for the name gets to them: all of them if the name
does not overlap itself, and so if it is a single one. -/
theorem matches_iff_scansTo :
    (pathMatches p.normalized name true = true
        ↔ p.writtenSteps.last = (t.target.map Step.written).last
          ∨ ScansTo (lead name) (slashed front ++ lead name))
      ∧ (Unbordered (lead name) → pathMatches p.normalized name true = true)
      ∧ (t.parents = [] → t.keys = [] → pathMatches p.normalized name true = true) := by
  obtain ⟨key, hkey, hbehind, hnil⟩ :=
    exists_key_of_isAt (keyed_of_isLocation hp hlocation) hlast
  have htext : p.normalized.toList = slashed front ++ ('/' :: name.toList ++ key) := by
    rw [normalized_eq_slashed hlocation, Trail.toList, hparents, List.append_assoc, slashed_append,
      hbehind, slash_descendantName hname]
  have hmatched : pathMatches p.normalized name true = true
      ↔ key = [] ∨ ScansTo (lead name) (slashed front ++ lead name) := by
    rw [pathMatches, if_pos rfl, matchesAnywhere_iff]
    constructor
    · rintro (⟨front', hends⟩ | ⟨scanned, rest, hscan, hrest, hsplit⟩)
      · left
        have hsplit : p.normalized.toList = front' ++ ('/' :: name.toList ++ []) := by
          rw [List.append_nil, hends]
        obtain rfl := front_unique hp hlocation ht hname hparents (.inl rfl) hsplit
        rw [hsplit] at htext
        exact (List.append_cancel_left (List.append_cancel_left htext)).symm
      · right
        obtain ⟨front', rfl⟩ := hscan.isSuffix
        have hsplit :
            p.normalized.toList = front' ++ ('/' :: name.toList ++ '[' :: '@' :: rest) := by
          rw [hsplit]
          simp
        obtain rfl := front_unique hp hlocation ht hname hparents (.inr hrest) hsplit
        exact hscan
    · rintro (rfl | hscan)
      · exact .inl ⟨slashed front, by rw [htext, List.append_nil]⟩
      · rcases hkey with rfl | hkey
        · exact .inl ⟨slashed front, by rw [htext, List.append_nil]⟩
        · obtain ⟨rest, rfl, -⟩ := exists_of_isKeyPredicate hkey
          exact .inr ⟨_, rest, hscan, hkey, by rw [htext, lead]; simp⟩
  have hfound : Unbordered (lead name) → pathMatches p.normalized name true = true :=
    fun hword => hmatched.mpr (.inr (scansTo_append hword (lead_ne_nil name) (slashed front)))
  exact ⟨by rw [hmatched, hnil], hfound, fun hsingle hkeys =>
    hfound (unbordered_lead ht hname hsingle hkeys)⟩

end

/-- A list within a list of its own name: the scan finds the outer two steps and goes
on behind them, in the middle of the two it was to find. -/
theorem unmatched_of_overlap :
    ∃ p t, Query.parse "/a[@k='v']/a[@k='v']/a[@k='w']" = .ok p ∧ p.isLocation = true
      ∧ Query.parse "//a[@k='v']/a" = .ok t ∧ t.descendantName = some "a[@k='v']/a"
      ∧ (t.target.map Step.written).Ends p.writtenSteps
      ∧ pathMatches p.normalized "a[@k='v']/a" true = false := by
  let step : Step := ⟨"a", [⟨⟨"k", .text "v"⟩, []⟩]⟩
  let last : ConditionGroup := ⟨⟨"k", .equal, .text "w"⟩, []⟩
  let p : Query := ⟨.absolute, [step, step], "a", .filtered (some last) none, none⟩
  let t : Query := ⟨.descendant, [step], "a", .filtered none none, none⟩
  have hp : (Query.parse "/a[@k='v']/a[@k='v']/a[@k='w']").toOption = some p := by decide +kernel
  have ht : (Query.parse "//a[@k='v']/a").toOption = some t := by decide +kernel
  rw [toOption_eq_some_iff] at hp ht
  exact ⟨p, t, hp, rfl, ht, by decide +kernel, ⟨[step.written], rfl, .inr ⟨last, rfl⟩⟩,
    by decide +kernel⟩

/-- The keys of the outer lists differ, so the scan gets to the two steps. -/
theorem matches_iff_scansTo_of_distinct_keys :
    ∃ p, Query.parse "/a[@k='u']/a[@k='v']/a[@k='w']" = .ok p
      ∧ pathMatches p.normalized "a[@k='v']/a" true = true := by
  let outer : Step := ⟨"a", [⟨⟨"k", .text "u"⟩, []⟩]⟩
  let step : Step := ⟨"a", [⟨⟨"k", .text "v"⟩, []⟩]⟩
  let last : ConditionGroup := ⟨⟨"k", .equal, .text "w"⟩, []⟩
  let p : Query := ⟨.absolute, [outer, step], "a", .filtered (some last) none, none⟩
  let t : Query := ⟨.descendant, [step], "a", .filtered none none, none⟩
  have hp : (Query.parse "/a[@k='u']/a[@k='v']/a[@k='w']").toOption = some p := by decide +kernel
  have ht : (Query.parse "//a[@k='v']/a").toOption = some t := by decide +kernel
  have hname : t.descendantName = some "a[@k='v']/a" := by decide +kernel
  rw [toOption_eq_some_iff] at hp ht
  have hscan : ScansTo (lead "a[@k='v']/a") (slashed [outer.written] ++ lead "a[@k='v']/a") := by
    decide +kernel
  have hparents : p.writtenSteps.parents = [outer.written] ++ (t.target.map Step.written).parents :=
    rfl
  exact ⟨p, hp, (matches_iff_scansTo hp rfl ht hname hparents (.inr ⟨last, rfl⟩)).1.mpr
    (.inr hscan)⟩

end DataTree.Path
