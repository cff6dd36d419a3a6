import DataTree.Proofs.Store.Cascade
import DataTree.Proofs.Store.Drafts
import DataTree.Proofs.Store.Turns
import DataTree.Store.Operation

/-!
# Trees of one branch

A tree in which every node has at most one child goes down as far as it has nodes.
There is one for every number of nodes, and a store takes it whatever its depth: only
when it is to be removed does its depth matter.

## Main definitions

* `branch` — a node with so many others above it and so many below.
* `branchHistory` — the operations that store such a tree for a new owner.

## Main results

* `descends_of_branch` — the rows of such a tree are as far below each other as its nodes.
-/

namespace DataTree

open DataTree.Path

/-! ## Paths -/

/-- `/a`, `/a/a`, and so on, with so many steps before the last one. -/
def branchQuery (above : Nat) : Query :=
  ⟨.absolute, List.replicate above ⟨"a", []⟩, "a", .filtered none none, none⟩

def branchPath (above : Nat) : String := (branchQuery above).normalized

private theorem stepAs_branch : StepAs ⟨"a", []⟩ ['a'] :=
  ⟨[], .inl ⟨by decide, nofun⟩, .nil, rfl⟩

private theorem stepsAs_branch (above : Nat) :
    ∃ w, StepsAs ⟨List.replicate above ⟨"a", []⟩, ⟨"a", []⟩⟩ w := by
  induction above with
  | zero => exact ⟨_, .last stepAs_branch⟩
  | succ above ih =>
      obtain ⟨w, hw⟩ := ih
      exact ⟨_, .cons stepAs_branch hw⟩

theorem parse_branchPath (above : Nat) :
    Query.parse (branchPath above) = .ok (branchQuery above) := by
  obtain ⟨w, hw⟩ := stepsAs_branch above
  have hsteps : (branchQuery above).written.steps
      = ⟨List.replicate above ⟨"a", []⟩, ⟨"a", []⟩⟩ := by
    show Trail.mk ((List.replicate above _).map _) _ = _
    rw [List.map_replicate]
    rfl
  rw [← hsteps] at hw
  exact parse_of_spelled ⟨w, [], hw, rfl, rfl⟩

theorem isRoot_branchPath (above : Nat) : isRoot (branchPath above) = false :=
  isRoot_of_parse (parse_branchPath above)

theorem normalize_branchPath (above : Nat) :
    normalize (branchPath above) = .ok (branchPath above) := by
  rw [Path.normalize, if_neg (by simp [isRoot_branchPath]), parse_branchPath]
  rfl

theorem chars_branchQuery_succ (above : Nat) :
    (branchQuery (above + 1)).chars = (branchQuery above).chars ++ ['/', 'a'] := by
  have hsuffix : ∀ n, (branchQuery n).suffixChars = [] := fun n => rfl
  have hlast : stepsChars (List.replicate (above + 1) ⟨"a", []⟩ ++ [⟨"a", []⟩])
      = stepsChars (List.replicate above ⟨"a", []⟩ ++ [⟨"a", []⟩]) ++ ['/', 'a'] := by
    rw [stepsChars, List.map_append, intercalate_append (by simp) (by simp),
      List.replicate_succ']
    rfl
  rw [Query.chars, Query.chars, hsuffix, hsuffix, List.append_nil, List.append_nil]
  show '/' :: stepsChars (List.replicate (above + 1) ⟨"a", []⟩ ++ [⟨"a", []⟩]) = _
  rw [hlast]
  rfl

theorem branchPath_extends (above : Nat) : Extends (branchPath above) (branchPath (above + 1)) := by
  refine extends_iff_toList.mpr ⟨['a'], by simp, ?_⟩
  rw [branchPath, branchPath, Query.normalized, Query.normalized, String.toList_ofList,
    String.toList_ofList, chars_branchQuery_succ]

/-! ## Nodes -/

/-- The node with so many others above it and so many below. -/
def branch (above : Nat) : Nat → Node
  | 0 => .leafless (branchPath above)
  | below + 1 => .mk (branchPath above) [] [(branchPath (above + 1), branch (above + 1) below)]

/-- What such a node is stored as. -/
def branchDraft (above : Nat) : Nat → Draft
  | 0 => .mk (branchPath above) (Leaves.text []) []
  | below + 1 => .mk (branchPath above) (Leaves.text []) [branchDraft (above + 1) below]

theorem path_branch (above below : Nat) : (branch above below).path = branchPath above := by
  cases below <;> rfl

theorem validate_branch (above below : Nat) : (branch above below).validate = .ok () := by
  have hpath : ∀ n, branchPath n ≠ "" := by
    intro n hempty
    have hroot := isRoot_branchPath n
    rw [hempty] at hroot
    cases hroot
  induction below generalizing above with
  | zero => exact Node.validate_eq_ok_iff.mpr ⟨hpath above, rfl, rfl⟩
  | succ below ih =>
      refine Node.validate_eq_ok_iff.mpr ⟨hpath above, rfl,
        Node.validateAll_cons_eq_ok_iff.mpr ⟨?_, ih (above + 1), rfl⟩⟩
      rw [path_branch, isChildPath_iff (isRoot_branchPath above)]
      exact branchPath_extends above

theorem ofNode_branch (above below : Nat) :
    Draft.ofNode (branch above below) = .ok (branchDraft above below) := by
  induction below generalizing above with
  | zero =>
      exact Draft.ofNode_eq_ok_iff.mpr ⟨_, _, normalize_branchPath above, rfl, rfl⟩
  | succ below ih =>
      exact Draft.ofNode_eq_ok_iff.mpr ⟨_, _, normalize_branchPath above,
        Draft.ofNodes_cons_eq_ok_iff.mpr ⟨_, _, ih (above + 1), rfl, rfl⟩, rfl⟩

theorem draftsOfAll_branch (below : Nat) :
    Node.draftsOfAll [branch 0 below] = .ok [branchDraft 0 below] := by
  have hroot : isRoot (branch 0 below).path = false := by
    rw [path_branch]
    exact isRoot_branchPath 0
  exact draftsOfAll_cons_eq_ok_iff.mpr ⟨_, _, (Node.drafts_eq_ok_iff hroot).mpr
    ⟨validate_branch 0 below, _, ofNode_branch 0 below, rfl⟩, rfl, rfl⟩

/-! ## Rows -/

theorem length_branchPath (above : Nat) : (branchPath above).toList.length = 2 * above + 2 := by
  rw [branchPath, Query.normalized, String.toList_ofList]
  induction above with
  | zero => rfl
  | succ above ih =>
      rw [chars_branchQuery_succ, List.length_append, ih]
      rfl

theorem paths_branchDraft (above below : Nat) :
    (branchDraft above below).paths = (List.range' above (below + 1)).map branchPath := by
  induction below generalizing above with
  | zero => rfl
  | succ below ih =>
      rw [branchDraft, Draft.paths, Draft.pathsOfAll, Draft.pathsOfAll, List.append_nil, ih]
      rfl

theorem nodup_paths_branchDraft (above below : Nat) : (branchDraft above below).paths.Nodup := by
  rw [paths_branchDraft]
  refine List.Nodup.map (fun n m hpath => ?_) List.nodup_range'
  have hn := length_branchPath n
  rw [hpath, length_branchPath] at hn
  omega

/-- Each row hangs under the one before, down to the last one. -/
theorem descends_branchDraft {all : List Row} {owner : Nat} (below : Nat) {above next : Nat}
    {parent : Option Nat}
    (h : ∀ r ∈ (branchDraft above below).rows owner parent next, r ∈ all) :
    ∃ r, Descends all below ⟨next, owner, branchPath above, parent, Leaves.text []⟩ r := by
  induction below generalizing above next parent with
  | zero => exact ⟨_, .self (h _ List.mem_cons_self)⟩
  | succ below ih =>
      have hbelow : ∀ r ∈ (branchDraft (above + 1) below).rows owner (some next) (next + 1),
          r ∈ all := fun r hr => h r (List.mem_cons_of_mem _ (List.mem_append_left _ hr))
      obtain ⟨r, hr⟩ := ih hbelow
      have hchild := (Descends.self (h _ List.mem_cons_self)).step hr.mem_top rfl
      refine ⟨r, ?_⟩
      rw [Nat.add_comm]
      exact hchild.trans hr

/-- A store without rows takes the tree and has its rows as far below each other. -/
theorem descends_of_branch {s : Store} {owner : Owner} (hthere : s.hasOwner owner.id = true)
    (hrows : s.rows = []) (below : Nat) : ∃ a r, a.owner = owner.id
      ∧ Descends (s.write .readWrite owner (.store [branch 0 below])).1.rows below a r := by
  let e : Edit := .insert none (branchDraft 0 below)
  have hplan : (Write.store [branch 0 below]).plan s owner = .ok (.edits [e]) :=
    map_eq_ok_iff.mpr ⟨_, draftsOfAll_branch below, rfl⟩
  have hfree : e.conflict? owner.id s = none := by
    refine Edit.conflict?_insert_eq_none_iff.mpr (firstTaken_eq_none_iff.mpr
      ⟨nodup_paths_branchDraft 0 below, fun path _ => ?_⟩)
    simp [Store.pathsOf, hrows]
  have hunfaulted : Unfaulted owner.id (inOrder [e]) s :=
    ⟨fun hfault => hfault.2 ⟨hthere, rfl⟩, trivial⟩
  have hstore : (s.write .readWrite owner (.store [branch 0 below])).1 = e.effect owner.id s := by
    rw [Store.write, hplan]
    show (applyWithFallback owner.id [e] s).1 = _
    rw [applyWithFallback_eq hunfaulted]
    show (inTurn owner.id [e] s).store = _
    rw [inTurn_cons_of_free hfree]
    rfl
  rw [hstore]
  obtain ⟨r, hr⟩ := descends_branchDraft below fun r hr =>
    show r ∈ (e.effect owner.id s).rows from List.mem_append_right _ hr
  exact ⟨_, r, rfl, hr⟩

def branchOwner : Owner := ⟨1, 1, "d", "o"⟩

/-- An owner with a tree so many levels deep below its root. -/
def branchHistory (below : Nat) : List Operation :=
  [.request .readWrite (.createDataspace "d"), .request .readWrite (.createOwner ⟨1, "d"⟩ "o"),
    .request .readWrite (.write branchOwner (.store [branch 0 below]))]

theorem descends_after_branchHistory (below : Nat) : ∃ a r, a.owner = branchOwner.id
    ∧ Descends (Store.empty.after (branchHistory below)).rows below a r := by
  let start := Store.empty.after
    [.request .readWrite (.createDataspace "d"), .request .readWrite (.createOwner ⟨1, "d"⟩ "o")]
  have hthere : start.hasOwner branchOwner.id = true := by decide
  exact descends_of_branch hthere rfl below

end DataTree
