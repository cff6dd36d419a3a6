import DataTree.Proofs.Store.Emptied
import DataTree.Proofs.Store.Lookups

/-!
# Removals by paths

A removal looks its rows up before it touches any, and refuses the paths at
which there are none.  Then the rows go in one pass, each with everything that
hangs below it, and only those are counted that do not go with a row above.
What is left is settled by the rows that the paths ask for: not by how often
or in which order, and not by which of them lie below others.

With the root marker among the paths none of this happens.  All trees of the
owner go at once, and the other paths are not looked at.

The engine has the last word: a row that is asked for and has others too far below it
keeps all rows where they are.

## Main definitions

* `Store.Lacks` — paths that a removal refuses.
* `Row.IsAddressed` — rows that the paths of a removal ask for.
* `Store.ReachesFrom` — how far below these rows there are others.

## Main results

* `removal_eq` — what a removal of rows leaves and counts.
* `removes_addressed` — so does a removal by paths, of one or of many.
* `deleteMany_refused` — when a removal by many paths is refused.
-/

namespace DataTree

open DataTree.Path

/-- Whether a path is malformed or asks for no row of an owner. -/
def Store.Lacks (s : Store) (owner : Nat) (path : String) : Prop :=
  (∀ target, normalize path ≠ .ok target) ∨ ∀ r ∈ s.rows, r.owner = owner → ¬r.IsAskedBy path

/-- Whether a row belongs to an owner and one of several paths asks for it. -/
def Row.IsAddressed (owner : Nat) (paths : List String) (r : Row) : Prop :=
  r.owner = owner ∧ ∃ path ∈ paths, r.IsAskedBy path

/-- Whether a row that one of several paths asks for has a row so many levels below. -/
def Store.ReachesFrom (s : Store) (owner : Nat) (paths : List String) (levels : Nat) : Prop :=
  ∃ a r, a.IsAddressed owner paths ∧ Descends s.rows levels a r

section

variable {s s' : Store} {owner : Owner} {paths : List String} {path : String}

/-! ## Looking the rows up -/

/-- The rows at the canonical form of a path are those that it asks for. -/
theorem mem_rowsAt_iff (hroot : isRoot path = false) {target : String}
    (htarget : normalize path = .ok target) {id : Nat} {r : Row} :
    r ∈ s.rowsAt id target ↔ r ∈ s.rows ∧ r.owner = id ∧ r.IsAskedBy path := by
  rw [Row.IsAskedBy, hroot, htarget]
  simp [Store.rowsAt, liesAt_eq]

theorem isUnresolved_iff (hroot : isRoot path = false) {id : Nat} :
    isUnresolved s id path = true ↔ s.Lacks id path := by
  rw [isUnresolved, Store.Lacks]
  cases htarget : normalize path with
  | error e => simp
  | ok target =>
      simp only [List.isEmpty_iff, List.eq_nil_iff_forall_not_mem, mem_rowsAt_iff hroot htarget]
      simp

/-- The rows at one path, whichever way they are looked up. -/
theorem rowsAt_eq_rowsAtAny (hroot : isRoot path = false) {target : String}
    (htarget : normalize path = .ok target) (id : Nat) :
    s.rowsAt id target = s.rowsAtAny id [path] := by
  have hnode : nodePath? path = some target := by
    rw [nodePath?, hroot, htarget]
    rfl
  simp [Store.rowsAt, Store.rowsAtAny, hnode, hroot]

/-- The paths that are looked up in vain. -/
theorem mem_unresolved_iff (hroots : ∀ path ∈ paths, isRoot path = false) {id : Nat} :
    path ∈ TextSet.ofList (paths.filter (isUnresolved s id))
      ↔ path ∈ paths ∧ s.Lacks id path := by
  rw [TextSet.mem_ofList, List.mem_filter]
  apply and_congr_right
  intro hpath
  exact isUnresolved_iff (hroots path hpath)

/-- A removal by many paths is planned if none of them is refused. -/
theorem plan_deleteMany_eq_ok_iff (hroots : ∀ path ∈ paths, isRoot path = false)
    {change : Change} : Write.plan s owner (.deleteMany paths) = .ok change ↔
      (∀ path ∈ paths, ¬s.Lacks owner.id path)
        ∧ change = .removal ((s.rowsAtAny owner.id paths).map Row.id) := by
  have hroot : ¬paths.any isRoot = true := by
    simpa using hroots
  have hunresolved : TextSet.ofList (paths.filter (isUnresolved s owner.id)) = []
      ↔ ∀ path ∈ paths, ¬s.Lacks owner.id path := by
    simp only [List.eq_nil_iff_forall_not_mem, mem_unresolved_iff hroots, not_and]
  rw [Write.plan, planDeleteMany, if_neg hroot, ← hunresolved]
  split
  · rename_i hnone
    simp [hnone, eq_comm]
  · rename_i hsome
    constructor
    · intro h
      cases h
    · exact fun h => absurd h.1 hsome

/-- A refusal names the paths as they were given. -/
theorem plan_deleteMany_eq_error (hroots : ∀ path ∈ paths, isRoot path = false)
    (hlacks : ∃ path ∈ paths, s.Lacks owner.id path) : ∃ missing : TextSet,
      Write.plan s owner (.deleteMany paths) = .error (.nodesNotFound owner.name missing)
        ∧ ∀ path, path ∈ missing ↔ path ∈ paths ∧ s.Lacks owner.id path := by
  have hroot : ¬paths.any isRoot = true := by
    simpa using hroots
  obtain ⟨path, hpath, hlack⟩ := hlacks
  have hnamed : path ∈ TextSet.ofList (paths.filter (isUnresolved s owner.id)) :=
    (mem_unresolved_iff hroots).mpr ⟨hpath, hlack⟩
  refine ⟨_, ?_, fun _ => mem_unresolved_iff hroots⟩
  rw [Write.plan, planDeleteMany, if_neg hroot]
  split
  · rename_i hnone
    rw [hnone] at hnamed
    cases hnamed
  · rfl

/-- A removal by one path is planned like one by many. -/
theorem plan_delete_eq_ok_iff (hroot : isRoot path = false) {change : Change} :
    Write.plan s owner (.delete path) = .ok change
      ↔ Write.plan s owner (.deleteMany [path]) = .ok change := by
  have hroots : ∀ p ∈ [path], isRoot p = false := by
    simpa using hroot
  rw [plan_deleteMany_eq_ok_iff hroots, List.forall_mem_singleton, ← isUnresolved_iff hroot,
    Write.plan, planDelete, hroot, isUnresolved]
  cases htarget : normalize path with
  | error e =>
      show Except.error (StoreError.badPath e) = _ ↔ _
      simp
  | ok target =>
      have hrows := rowsAt_eq_rowsAtAny (s := s) hroot htarget owner.id
      show removalOf owner path (s.rowsAt owner.id target) = _
        ↔ ¬(s.rowsAt owner.id target).isEmpty = true ∧ _
      rw [removalOf, hrows]
      by_cases hnone : (s.rowsAtAny owner.id [path]).isEmpty = true
      · rw [if_pos hnone]
        constructor
        · intro h
          cases h
        · exact fun h => absurd hnone h.1
      · rw [if_neg hnone, Except.ok.injEq]
        constructor
        · exact fun h => ⟨hnone, h.symm⟩
        · exact fun h => h.2.symm

/-- Writes with the same plans have the same effects. -/
theorem write_eq_ok_of_plans {access : Access} {w w' : Write} {summary : Summary}
    (hplans : ∀ change, w.plan s owner = .ok change → w'.plan s owner = .ok change)
    (h : s.write access owner w = (s', .ok summary)) :
    s.write access owner w' = (s', .ok summary) := by
  obtain ⟨change, hplan, -⟩ := write_eq_ok h
  rw [Store.write, hplan] at h
  rw [Store.write, hplans change hplan]
  exact h

/-! ## Taking them out -/

/-- The rows that a pass takes out by the ids of those looked up. -/
theorem contains_ids_iff (hs : s.Sound) {rows : List Row} {asked : Row → Prop}
    (hasked : ∀ r, r ∈ rows ↔ r ∈ s.rows ∧ asked r) {r : Row} (hr : r ∈ s.rows) :
    (rows.map Row.id).contains r.id = true ↔ asked r := by
  rw [List.contains_iff_mem, List.mem_map]
  constructor
  · rintro ⟨q, hq, hid⟩
    obtain ⟨hqmem, hqasked⟩ := (hasked q).mp hq
    rwa [← hs.eq_of_id hqmem hr hid]
  · exact fun hrasked => ⟨r, (hasked r).mpr ⟨hr, hrasked⟩, rfl⟩

/-- The engine refuses to remove rows that have others too far below them. -/
theorem goesTooDeep_ids_iff (hs : s.Sound) {rows : List Row} {asked : Row → Prop}
    (hasked : ∀ r, r ∈ rows ↔ r ∈ s.rows ∧ asked r) :
    s.goesTooDeep (fun r => (rows.map Row.id).contains r.id) 0 = true
      ↔ ∃ a r, asked a ∧ Descends s.rows Store.maxCascade a r := by
  rw [Store.goesTooDeep_iff hs.ordered]
  constructor
  · rintro ⟨a, r, n, hdescends, ha, hle⟩
    obtain ⟨q, hq⟩ := hdescends.exists_at (show Store.maxCascade ≤ n by omega)
    exact ⟨a, q, (contains_ids_iff hs hasked hdescends.mem_top).mp ha, hq⟩
  · rintro ⟨a, r, ha, hdescends⟩
    exact ⟨a, r, _, hdescends, (contains_ids_iff hs hasked hdescends.mem_top).mpr ha, by omega⟩

/-- A removal of the rows that are asked for leaves those that are at or below
none of them, and counts those that are below no other. -/
theorem removal_eq (hs : s.Sound) {rows : List Row} {asked : Row → Prop}
    (hasked : ∀ r, r ∈ rows ↔ r ∈ s.rows ∧ asked r) {summary : Summary}
    (h : Change.commit s owner (.removal (rows.map Row.id)) = (s', .ok summary)) :
    s' = { s with rows := s'.rows } ∧ s'.rows.Sublist s.rows
      ∧ (∀ r, r ∈ s'.rows ↔ r ∈ s.rows ∧ ∀ a, asked a → ¬AtOrBelow s.rows a r)
      ∧ ∃ tops : List Row, tops.Nodup
        ∧ (∀ r, r ∈ tops ↔ (r ∈ s.rows ∧ asked r)
          ∧ ∀ a, asked a → AtOrBelow s.rows a r → a = r)
        ∧ summary = { deleted := tops.length } := by
  classical
  let goes (r : Row) : Bool := (rows.map Row.id).contains r.id
  have hgoes : ∀ r ∈ s.rows, (goes r = true ↔ asked r) :=
    fun r hr => contains_ids_iff hs hasked hr
  obtain ⟨rfl, rfl⟩ := Change.remove_eq_ok h
  refine ⟨rfl, Store.survivors_sublist _ [] s.rows, fun r => ?_, ?_⟩
  · show r ∈ Store.survivors goes [] s.rows ↔ _
    rw [Store.mem_survivors_iff hs.ordered]
    apply and_congr_right
    intro hr
    constructor
    · intro hstays a ha hbelow
      exact hstays ⟨a, hbelow, (hgoes a hbelow.mem_top).mpr ha⟩
    · rintro hstays ⟨a, hbelow, ha⟩
      exact hstays a ((hgoes a hbelow.mem_top).mp ha) hbelow
  · refine ⟨s.rows.filter fun r => Topmost goes s.rows r, hs.nodup.filter _, fun r => ?_, ?_⟩
    · rw [List.mem_filter, decide_eq_true_eq, Topmost, ← and_assoc]
      apply and_congr
      · exact and_congr_right fun hr => hgoes r hr
      · apply forall_congr'
        intro a
        constructor
        · exact fun htop ha hbelow => htop hbelow ((hgoes a hbelow.mem_top).mpr ha)
        · exact fun htop hbelow ha => htop ((hgoes a hbelow.mem_top).mp ha) hbelow
    · rw [← List.countP_eq_length_filter, ← Store.directRemovals_eq hs.ordered]
      rfl

end

/-- Whatever operations have been run, a removal by paths that succeeds leaves
the rows that are not at or below a row that one of the paths asks for, as they
were and in order, and changes nothing else; it counts the rows asked for that
are below no other of them.  A removal by one path succeeds exactly if the
removal by that path alone among many does, with the same outcome. -/
theorem removes_addressed (history : List Operation) (access : Access) (owner : Owner) :
    let s := Store.empty.after history
    (∀ paths s' summary, (∀ path ∈ paths, isRoot path = false) →
        s.write access owner (.deleteMany paths) = (s', .ok summary) →
        s' = { s with rows := s'.rows } ∧ s'.rows.Sublist s.rows
          ∧ (∀ r, r ∈ s'.rows ↔ r ∈ s.rows
            ∧ ∀ a, a.IsAddressed owner.id paths → ¬AtOrBelow s.rows a r)
          ∧ ∃ tops : List Row, tops.Nodup
            ∧ (∀ r, r ∈ tops ↔ (r ∈ s.rows ∧ r.IsAddressed owner.id paths)
              ∧ ∀ a, a.IsAddressed owner.id paths → AtOrBelow s.rows a r → a = r)
            ∧ summary = { deleted := tops.length })
      ∧ ∀ path s' summary, isRoot path = false →
        (s.write access owner (.delete path) = (s', .ok summary)
          ↔ s.write access owner (.deleteMany [path]) = (s', .ok summary)) := by
  intro s
  have hs : s.Sound := sound_after history
  refine ⟨fun paths s' summary hroots h => ?_, fun path s' summary hroot => ?_⟩
  · obtain ⟨change, hplan, hcommit⟩ := write_eq_ok h
    obtain ⟨-, rfl⟩ := (plan_deleteMany_eq_ok_iff hroots).mp hplan
    exact removal_eq hs (fun r => mem_rowsAtAny_iff) hcommit
  · constructor
    · exact write_eq_ok_of_plans fun change hplan => (plan_delete_eq_ok_iff hroot).mp hplan
    · exact write_eq_ok_of_plans fun change hplan => (plan_delete_eq_ok_iff hroot).mpr hplan

/-- A list and one of its elements, a node and a node below it, each named
after or before the other and one of them twice. -/
theorem removes_addressed_of_nested_targets :
    let leaf (path : String) : String × Node := (path, .leafless path)
    let inner : Node := .mk "/a/b" [] [leaf "/a/b/c"]
    let tree : Node := .mk "/a" [] [(inner.path, inner), leaf "/a/l[@k='1']", leaf "/a/l[@k='2']",
      leaf "/a/lx"]
    let owner : Owner := ⟨1, 1, "d", "o"⟩
    let request := Operation.request .readWrite
    let history := [request (.createDataspace "d"), request (.createOwner ⟨1, "d"⟩ "o"),
      request (.write owner (.store [tree]))]
    let paths := ["/a/b/c", "/a/l", "/a/b", "/a/l[@k='2']", "/a/b/c"]
    let s := Store.empty.after history
    let after := (s.write .readWrite owner (.deleteMany paths)).1
    s.write .readWrite owner (.deleteMany paths) = (after, .ok { deleted := 3 })
      ∧ after.rows.map Row.path = ["/a", "/a/lx"]
      ∧ (∀ r, r ∈ after.rows ↔ r ∈ s.rows
        ∧ ∀ a, a.IsAddressed owner.id paths → ¬AtOrBelow s.rows a r)
      ∧ (∃ tops : List Row, tops.length = 3 ∧ tops.Nodup
        ∧ ∀ r, r ∈ tops ↔ (r ∈ s.rows ∧ r.IsAddressed owner.id paths)
          ∧ ∀ a, a.IsAddressed owner.id paths → AtOrBelow s.rows a r → a = r)
      ∧ ∃ s', s.write .readWrite owner (.delete "/a/l") = (s', .ok { deleted := 2 })
        ∧ s.write .readWrite owner (.deleteMany ["/a/l"]) = (s', .ok { deleted := 2 }) := by
  intro leaf inner tree owner request history paths s after
  obtain ⟨hmany, hone⟩ := removes_addressed history .readWrite owner
  obtain ⟨hanswer, hlist, hrows⟩ :
      (s.write .readWrite owner (.deleteMany paths)).2.toOption = some { deleted := 3 }
        ∧ (s.write .readWrite owner (.delete "/a/l")).2.toOption = some { deleted := 2 }
        ∧ (s.write .readWrite owner (.deleteMany paths)).1.rows.map Row.path = ["/a", "/a/lx"] := by
    decide +kernel
  have hwritten : s.write .readWrite owner (.deleteMany paths) = (after, .ok { deleted := 3 }) :=
    Prod.snd_eq_iff.mp (toOption_eq_some_iff.mp hanswer)
  have hdeleted : s.write .readWrite owner (.delete "/a/l")
      = ((s.write .readWrite owner (.delete "/a/l")).1, .ok { deleted := 2 }) :=
    Prod.snd_eq_iff.mp (toOption_eq_some_iff.mp hlist)
  obtain ⟨-, -, hleft, tops, hnodup, htops, hcount⟩ :=
    hmany paths after _ (by decide +kernel) hwritten
  have hlength : tops.length = 3 := (congrArg Summary.deleted hcount).symm
  refine ⟨hwritten, hrows, hleft, ⟨tops, hlength, hnodup, htops⟩, _, hdeleted, ?_⟩
  exact (hone "/a/l" _ _ (by decide +kernel)).mp hdeleted

/-! ## What is refused -/

/-- The rows that paths without the root marker ask for are removed, unless they have
others too far below them. -/
theorem write_deleteMany {s : Store} {owner : Owner} {paths : List String} (hs : s.Sound)
    (hroots : ∀ path ∈ paths, isRoot path = false)
    (hfound : ∀ path ∈ paths, ¬s.Lacks owner.id path) :
    (¬s.ReachesFrom owner.id paths Store.maxCascade →
        ∃ s' summary, s.write .readWrite owner (.deleteMany paths) = (s', .ok summary))
      ∧ (s.ReachesFrom owner.id paths Store.maxCascade →
        s.write .readWrite owner (.deleteMany paths) = (s, .error (.engine .deepCascade))) := by
  have hplan : Write.plan s owner (.deleteMany paths)
      = .ok (.removal ((s.rowsAtAny owner.id paths).map Row.id)) :=
    (plan_deleteMany_eq_ok_iff hroots).mpr ⟨hfound, rfl⟩
  have hwrite : s.write .readWrite owner (.deleteMany paths) = Change.remove s fun r =>
      ((s.rowsAtAny owner.id paths).map Row.id).contains r.id := by
    rw [Store.write, hplan]
    rfl
  have hdeep : s.goesTooDeep (fun r => ((s.rowsAtAny owner.id paths).map Row.id).contains r.id) 0
      = true ↔ s.ReachesFrom owner.id paths Store.maxCascade :=
    goesTooDeep_ids_iff hs fun r => mem_rowsAtAny_iff
  rw [hwrite]
  constructor
  · intro hshallow
    exact ⟨_, _, Change.remove_of_shallow (Bool.eq_false_iff.mpr (mt hdeep.mp hshallow))⟩
  · exact fun hreaches => Change.remove_of_deep (hdeep.mpr hreaches)

/-- Whatever operations have been run, a removal by many paths without the root
marker is refused if one of them is malformed or asks for no row: nothing
changes, and the error names exactly these paths, as they were given.
Otherwise it succeeds, unless a row that is asked for has one 1000 levels below
it: then the engine refuses it, and nothing changes.  With the root marker among
the paths the other paths are not looked at: it takes all rows of the owner,
unless the engine refuses that. -/
theorem deleteMany_refused (history : List Operation) (owner : Owner) (paths : List String) :
    let s := Store.empty.after history
    ((∀ path ∈ paths, isRoot path = false) →
        ((∃ path ∈ paths, s.Lacks owner.id path) → ∀ access, ∃ missing : TextSet,
          s.write access owner (.deleteMany paths)
              = (s, .error (.nodesNotFound owner.name missing))
            ∧ ∀ path, path ∈ missing ↔ path ∈ paths ∧ s.Lacks owner.id path)
        ∧ ((∀ path ∈ paths, ¬s.Lacks owner.id path) →
          (¬s.ReachesFrom owner.id paths 1000 →
            ∃ s' summary, s.write .readWrite owner (.deleteMany paths) = (s', .ok summary))
          ∧ (s.ReachesFrom owner.id paths 1000 →
            s.write .readWrite owner (.deleteMany paths) = (s, .error (.engine .deepCascade)))))
      ∧ ((∃ path ∈ paths, isRoot path = true) →
        (¬s.Reaches owner.id 1000 → s.write .readWrite owner (.deleteMany paths)
          = (s.without [owner.id], .ok { deleted := (s.childRows owner.id none).length }))
        ∧ (s.Reaches owner.id 1000 →
          s.write .readWrite owner (.deleteMany paths) = (s, .error (.engine .deepCascade)))) := by
  intro s
  have hs : s.Sound := sound_after history
  refine ⟨fun hroots => ⟨fun hlacks access => ?_, write_deleteMany hs hroots⟩, fun hroot =>
    ⟨write_of_clears_of_shallow hs (w := .deleteMany paths) hroot,
      write_of_clears_of_deep hs (w := .deleteMany paths) hroot⟩⟩
  obtain ⟨missing, hplan, hmissing⟩ := plan_deleteMany_eq_error hroots hlacks
  refine ⟨missing, ?_, hmissing⟩
  rw [Store.write, hplan]

/-- A malformed path and one without a row, named twice, beside a node and a
list that are there. -/
theorem deleteMany_refused_of_missing_paths :
    let owner : Owner := ⟨1, 1, "d", "o"⟩
    let request := Operation.request .readWrite
    let history := [request (.createDataspace "d"), request (.createOwner ⟨1, "d"⟩ "o"),
      request (.write owner (.store (["/a", "/l[@k='1']"].map Node.leafless)))]
    let s := Store.empty.after history
    let paths := ["/a", "/b", "/l", "//[", "/b"]
    (∃ missing : TextSet,
        s.write .readWrite owner (.deleteMany paths) = (s, .error (.nodesNotFound "o" missing))
          ∧ ∀ path, path ∈ missing ↔ path ∈ paths ∧ s.Lacks 1 path)
      ∧ (s.write .readWrite owner (.deleteMany paths)).2.map Summary.deleted
        = .error (.nodesNotFound "o" ["//[", "/b"])
      ∧ (∃ s' summary, s.write .readWrite owner (.deleteMany ["/a", "/l"]) = (s', .ok summary))
      ∧ s.write .readWrite owner (.deleteMany ["/b", "/"])
        = (s.without [1], .ok { deleted := (s.childRows 1 none).length }) := by
  intro owner request history s paths
  have hroots : ∀ path ∈ paths, isRoot path = false := by decide +kernel
  have hlacks : s.Lacks owner.id "/b" :=
    (isUnresolved_iff (by decide +kernel)).mp (by decide +kernel)
  have hfound : ∀ path ∈ ["/a", "/l"], ¬s.Lacks owner.id path := by
    intro path hpath
    have hroot : isRoot path = false := by
      revert path
      decide +kernel
    rw [← isUnresolved_iff hroot]
    revert path
    decide +kernel
  have hs : s.Sound := sound_after history
  obtain ⟨hshallow, hshallowOwner⟩ : s.goesTooDeep (fun r =>
      ((s.rowsAtAny owner.id ["/a", "/l"]).map Row.id).contains r.id) 0 = false
        ∧ s.treesTooDeep owner.id = false := by
    decide +kernel
  have hreaches : ¬s.ReachesFrom owner.id ["/a", "/l"] 1000 :=
    mt (goesTooDeep_ids_iff hs fun r => mem_rowsAtAny_iff).mpr (Bool.eq_false_iff.mp hshallow)
  have hreachesOwner : ¬s.Reaches owner.id 1000 :=
    mt (Store.treesTooDeep_iff hs owner.id).mpr (Bool.eq_false_iff.mp hshallowOwner)
  refine ⟨((deleteMany_refused history owner paths).1 hroots).1 ⟨"/b", ?_, hlacks⟩ _, ?_,
    (((deleteMany_refused history owner _).1 (by decide +kernel)).2 hfound).1 hreaches,
    ((deleteMany_refused history owner _).2 (by decide +kernel)).1 hreachesOwner⟩
  · decide +kernel
  · decide +kernel

/-- A path without a row beside the root marker is not reported, and the only
row there is goes. -/
theorem deleteMany_unchecked :
    let owner : Owner := ⟨1, 1, "d", "o"⟩
    let request := Operation.request .readWrite
    let history := [request (.createDataspace "d"), request (.createOwner ⟨1, "d"⟩ "o"),
      request (.write owner (.store [.leafless "/a"]))]
    let s := Store.empty.after history
    let asked : Write := .deleteMany ["/", "/b"]
    isRoot "/b" = false ∧ s.Lacks 1 "/b" ∧ s.rows.map Row.path = ["/a"]
      ∧ (s.write .readWrite owner asked).1.rows = []
      ∧ (s.write .readWrite owner asked).2 = .ok { deleted := 1 } := by
  intro owner request history s asked
  obtain ⟨hroot, hlacks, hrows, hgone, hanswer⟩ :
      isRoot "/b" = false ∧ isUnresolved s 1 "/b" = true ∧ s.rows.map Row.path = ["/a"]
        ∧ (s.write .readWrite owner asked).1.rows = []
        ∧ (s.write .readWrite owner asked).2.toOption = some { deleted := 1 } := by
    decide +kernel
  exact ⟨hroot, (isUnresolved_iff hroot).mp hlacks, hrows, hgone, toOption_eq_some_iff.mp hanswer⟩

end DataTree
