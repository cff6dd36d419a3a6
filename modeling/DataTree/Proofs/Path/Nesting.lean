import DataTree.Node.Basic
import DataTree.Proofs.Path.Canonical

/-!
# Nested paths

Nesting is checked on paths as they were written, but rows hold canonical
paths.  The step that ends the path of a parent is a step before the last
one in the path of its child, or the last one before an axis.  Either way it
is printed as in the path of the parent: before the last step only keys may
stand, and keys alone leave nothing to rearrange.

## Main definitions

* `Extends` — a path, a slash, and something more.

## Main results

* `normalize_extends` — canonical paths are nested like the paths they come
  from.
-/

namespace DataTree.Path

open DataTree.Text

/-- `child` is `parent`, a slash, and something more. -/
def Extends (parent child : String) : Prop :=
  ∃ rest, rest ≠ "" ∧ child = parent ++ "/" ++ rest

theorem extends_iff_toList {parent child : String} :
    Extends parent child ↔ ∃ rest, rest ≠ [] ∧ child.toList = parent.toList ++ '/' :: rest := by
  constructor
  · rintro ⟨rest, hrest, rfl⟩
    refine ⟨rest.toList, ?_, by simp⟩
    intro hnil
    exact hrest (String.toList_eq_nil_iff.mp hnil)
  · rintro ⟨rest, hrest, hchild⟩
    refine ⟨String.ofList rest, ?_, ?_⟩
    · intro hempty
      apply hrest
      rw [← String.toList_ofList (l := rest), hempty]
      rfl
    · rw [← String.toList_inj, hchild]
      simp

theorem Extends.trans {a b c : String} (hab : Extends a b) (hbc : Extends b c) : Extends a c := by
  obtain ⟨front, hfront, hb⟩ := extends_iff_toList.mp hab
  obtain ⟨back, -, hc⟩ := extends_iff_toList.mp hbc
  refine extends_iff_toList.mpr ⟨front ++ '/' :: back, by simp [hfront], ?_⟩
  rw [hc, hb, List.append_assoc, List.cons_append]

/-- Away from the root marker a child path is one that extends its parent. -/
theorem isChildPath_iff {parent child : String} (h : isRoot parent = false) :
    Node.isChildPath parent child = true ↔ Extends parent child := by
  rw [extends_iff_toList]
  unfold Node.isChildPath
  rw [if_neg (by simp [h])]
  split
  · rename_i c rest hafter
    rw [after?_eq_some_iff] at hafter
    simp only [true_iff]
    exact ⟨c :: rest, by simp, by simpa using hafter⟩
  · rename_i hafter
    simp only [Bool.false_eq_true, false_iff]
    rintro ⟨rest, hrest, hchild⟩
    cases rest with
    | nil => exact hrest rfl
    | cons c rest =>
        refine hafter c rest ?_
        rw [after?_eq_some_iff, hchild]
        simp

/-- The root marker has at most one character. -/
theorem isRoot_of_two_le {path : String} (h : 2 ≤ path.toList.length) : isRoot path = false := by
  unfold isRoot
  rw [Bool.or_eq_false_iff, decide_eq_false_iff_not, decide_eq_false_iff_not]
  constructor
  · rintro rfl
    simp at h
  · rintro rfl
    simp [rootPath] at h

theorem isRoot_of_extends {parent child : String} (h : Extends parent child) :
    isRoot child = false := by
  obtain ⟨rest, hrest, hchild⟩ := extends_iff_toList.mp h
  have hlength : 0 < rest.length := List.length_pos_iff.mpr hrest
  refine isRoot_of_two_le ?_
  rw [hchild, List.length_append, List.length_cons]
  omega

/-- No child path is the root marker. -/
theorem isRoot_of_isChildPath {parent child : String}
    (h : Node.isChildPath parent child = true) : isRoot child = false := by
  cases hparent : isRoot parent with
  | false => exact isRoot_of_extends ((isChildPath_iff hparent).mp h)
  | true =>
      unfold Node.isChildPath at h
      rw [if_pos hparent] at h
      split at h
      · rename_i c rest hlist
        refine isRoot_of_two_le ?_
        rw [hlist, List.length_cons, List.length_cons]
        omega
      · cases h

/-! ## Reading on -/

/-- Steps that go on behind a slash: an axis, or further steps. -/
theorem readSteps_append_slash {allowAxis : Bool} {t : Trail WrittenStep} {w : List Char}
    (h : StepsAs t w) (more : List Char) :
    readSteps allowAxis (w ++ '/' :: more) =
      match axisTarget? allowAxis more with
      | some target => .ok (t, some target)
      | none => (readSteps allowAxis more).map fun r =>
          (⟨t.toList ++ r.1.parents, r.1.last⟩, r.2) := by
  induction h with
  | last hs =>
      rw [readSteps_slash hs]
      rfl
  | @cons s t w v hs ht ih =>
      rw [List.append_assoc, List.cons_append, readSteps_slash hs,
        axisTarget?_append ht (endsStep_slash more), ih]
      cases axisTarget? allowAxis more with
      | some target => rfl
      | none =>
          cases readSteps allowAxis more with
          | error fault => rfl
          | ok r => rfl

/-- How the path of a child goes on where the path of its parent ends. -/
inductive GoesOn (e : Expression) : Expression → Prop where
  /-- An axis behind the last step. -/
  | axis {t : Trail WrittenStep} : e.ancestor = none →
      GoesOn e { e with ancestor := some t }
  /-- Further steps. -/
  | steps {m : Trail WrittenStep} {v : List Char} {axis : Option (Trail WrittenStep)} :
      e.ancestor = none → StepsAs m v →
        GoesOn e ⟨e.anchor, ⟨e.steps.toList ++ m.parents, m.last⟩, axis⟩
  /-- Further steps of the axis. -/
  | axisSteps {t m : Trail WrittenStep} {v : List Char} :
      e.ancestor = some t → StepsAs m v →
        GoesOn e { e with ancestor := some ⟨t.toList ++ m.parents, m.last⟩ }

theorem goesOn_of_read {parent more : List Char} {e e' : Expression}
    (h : Expression.read parent = .ok e)
    (h' : Expression.read (parent ++ '/' :: more) = .ok e') : GoesOn e e' := by
  obtain ⟨w, rest, hw, rfl, haxis⟩ := read_eq_ok_iff.mp h
  obtain ⟨c, hc, hstart⟩ := steps_head hw
  obtain ⟨anchor, steps, ancestor⟩ := e
  have hanchor : readAnchor (anchor.chars ++ (w ++ rest) ++ '/' :: more)
      = .ok (anchor, w ++ (rest ++ '/' :: more)) := by
    rw [List.append_assoc, List.append_assoc]
    exact readAnchor_append (head?_append_of_head? hc _) hstart
  unfold Expression.read at h'
  obtain ⟨⟨anchor', c₁⟩, h₁, h'⟩ := bind_eq_ok_iff.mp h'
  rw [hanchor] at h₁
  cases h₁
  obtain ⟨⟨main, axis⟩, h₂, h'⟩ := bind_eq_ok_iff.mp h'
  cases ancestor with
  | none =>
      have haxis : rest = [] := haxis
      subst haxis
      rw [List.nil_append, readSteps_append_slash hw] at h₂
      cases htarget : axisTarget? true more with
      | some target =>
          rw [htarget] at h₂
          cases h₂
          obtain ⟨⟨t, r⟩, h₃, h'⟩ := bind_eq_ok_iff.mp h'
          cases h'
          exact .axis rfl
      | none =>
          rw [htarget] at h₂
          obtain ⟨⟨m, axis'⟩, h₃, heq⟩ := map_eq_ok_iff.mp h₂
          cases heq
          obtain ⟨v, _, hv, -, -⟩ := steps_of_readSteps h₃
          cases axis' with
          | none =>
              cases h'
              exact .steps rfl hv
          | some target =>
              obtain ⟨⟨t, r⟩, h₄, h'⟩ := bind_eq_ok_iff.mp h'
              cases h'
              exact .steps rfl hv
  | some t =>
      obtain ⟨target, htarget, rfl⟩ := haxis
      have hread : readSteps true (w ++ ('/' :: (axisLead ++ target) ++ '/' :: more))
          = .ok (steps, some (target ++ '/' :: more)) := by
        rw [List.cons_append, List.append_assoc]
        exact readSteps_append hw (.axis rfl)
      rw [hread] at h₂
      cases h₂
      obtain ⟨⟨u, r⟩, h₃, h'⟩ := bind_eq_ok_iff.mp h'
      cases h'
      rw [readSteps_append_slash htarget] at h₃
      obtain ⟨⟨m, r'⟩, h₄, heq⟩ := map_eq_ok_iff.mp h₃
      cases heq
      obtain ⟨v, _, hv, -, -⟩ := steps_of_readSteps h₄
      exact .axisSteps rfl hv

/-! ## Canonical paths -/

/-- Only keys stand before the last step of a query. -/
theorem writtenSteps_parents (q : Query) :
    ∃ steps : List Step, q.writtenSteps.parents = steps.map Step.written := by
  obtain ⟨anchor, parents, name, selection, ancestor⟩ := q
  cases selection with
  | leafText keys wanted => exact ⟨parents ++ [⟨name, keys⟩], by simp [Query.writtenSteps]⟩
  | filtered conditions contains => exact ⟨parents, rfl⟩

/-- Keys leave nothing to rearrange. -/
theorem Step.arranged_written (s : Step) : s.written.arranged = s.written := by
  have hall : ∀ p ∈ s.written.predicates, p.isConditions = true := by
    intro p hp
    obtain ⟨g, -, rfl⟩ := List.mem_map.mp hp
    rfl
  unfold WrittenStep.arranged
  rw [List.filter_eq_self.mpr hall, List.filter_eq_nil_iff.mpr (by simpa using hall),
    List.append_nil]

theorem Trail.chars_append (t m : Trail WrittenStep) :
    Trail.chars ⟨t.toList ++ m.parents, m.last⟩ = t.chars ++ '/' :: m.chars := by
  unfold Trail.chars
  rw [← intercalate_append (by simp [Trail.toList]) (by simp [Trail.toList])]
  simp [Trail.toList]

theorem chars_ne_nil {t : Trail WrittenStep} {w : List Char} (h : StepsAs t w) :
    t.chars ≠ [] := by
  obtain ⟨c, hc, -⟩ := steps_head (stepsAs_chars h)
  intro hnil
  rw [hnil] at hc
  cases hc

/-- Going on keeps what is printed and adds a slash and something more. -/
theorem GoesOn.chars_eq {e e' : Expression} {q' : Query} (h : GoesOn e e')
    (hq' : e'.toQuery = .ok q') :
    ∃ rest, rest ≠ [] ∧ e'.arranged.chars = e.arranged.chars ++ '/' :: rest := by
  cases h with
  | @axis t hnone =>
      refine ⟨axisLead ++ t.chars, List.append_ne_nil_of_left_ne_nil axisLead_ne_nil _, ?_⟩
      simp [Expression.chars, Expression.arranged, hnone, axisChars]
  | @axisSteps t m v hsome hv =>
      refine ⟨m.chars, chars_ne_nil hv, ?_⟩
      simp [Expression.chars, Expression.arranged, hsome, axisChars, Trail.chars_append]
  | @steps m v axis hnone hv =>
      obtain ⟨v', hv'⟩ := stepsAs_arranged hv
      obtain ⟨steps, hsteps⟩ := writtenSteps_parents q'
      have hwritten := congrArg (fun x => x.steps.parents) (written_of_toQuery hq')
      have hlast : e.steps.last ∈ steps.map Step.written := by
        rw [← hsteps]
        show e.steps.last ∈ q'.written.steps.parents
        rw [show q'.written.steps.parents = e.steps.toList ++ m.parents from hwritten]
        simp [Trail.toList]
      obtain ⟨s, -, hs⟩ := List.mem_map.mp hlast
      have harranged : e.arranged.steps = e.steps := by
        show (⟨e.steps.parents, e.steps.last.arranged⟩ : Trail WrittenStep) = e.steps
        rw [← hs, Step.arranged_written, hs]
      have hsame : e.arranged.chars = e.anchor.chars ++ e.steps.chars := by
        unfold Expression.chars
        rw [harranged, show e.arranged.ancestor = none from hnone]
        simp [Expression.arranged, axisChars]
      have hmore : Trail.chars ⟨e.steps.toList ++ m.parents, m.last.arranged⟩
          = e.steps.chars ++ '/' :: Trail.chars ⟨m.parents, m.last.arranged⟩ :=
        Trail.chars_append e.steps ⟨m.parents, m.last.arranged⟩
      rw [hsame]
      refine ⟨Trail.chars ⟨m.parents, m.last.arranged⟩ ++ axisChars axis, ?_, ?_⟩
      · intro hnil
        exact chars_ne_nil hv' (List.append_eq_nil_iff.mp hnil).1
      · simp only [Expression.chars, Expression.arranged, hmore, List.append_assoc,
          List.cons_append]

theorem Query.normalized_eq {e : Expression} {q : Query} (h : e.toQuery = .ok q) :
    q.normalized = String.ofList e.arranged.chars := by
  rw [Query.normalized, ← chars_written, written_of_toQuery h]

/-- Canonical paths are nested like the paths they come from. -/
theorem normalize_extends {parent child parent' child' : String} (hroot : isRoot parent = false)
    (hparent : normalize parent = .ok parent') (hchild : normalize child = .ok child')
    (h : Extends parent child) : Extends parent' child' := by
  obtain ⟨more, hmore, hlist⟩ := extends_iff_toList.mp h
  have hchildRoot : isRoot child = false := isRoot_of_extends h
  unfold normalize at hparent hchild
  rw [hroot] at hparent
  rw [hchildRoot] at hchild
  obtain ⟨q, hq, rfl⟩ := map_eq_ok_iff.mp hparent
  obtain ⟨q', hq', rfl⟩ := map_eq_ok_iff.mp hchild
  obtain ⟨e, hread, hquery⟩ := parse_eq_ok_iff.mp hq
  obtain ⟨e', hread', hquery'⟩ := parse_eq_ok_iff.mp hq'
  rw [hlist] at hread'
  obtain ⟨rest, hrest, hchars⟩ := (goesOn_of_read hread hread').chars_eq hquery'
  refine extends_iff_toList.mpr ⟨rest, hrest, ?_⟩
  rw [Query.normalized_eq hquery, Query.normalized_eq hquery', hchars]
  simp

end DataTree.Path
