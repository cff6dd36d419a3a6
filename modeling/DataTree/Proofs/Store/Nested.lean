import DataTree.Proofs.Store.Parts

/-!
# Nested drafts

A tree is checked for nesting on its paths as they are written, while its drafts hold
canonical paths.  Canonical paths are nested like the paths they come from, though the
last step of the one is printed by other rules than the same step inside the other.  So
the drafts of a tree are nested at every depth, and each node has one but a root marker,
which stands for its children.

## Main results

* `exists_drafts_iff` — which trees have drafts.
* `normalize_keeps_nesting` — canonical paths are nested like the paths they come from,
  and drafts like their trees.
-/

namespace DataTree

open DataTree.Path

/-! ## Trees with drafts -/

mutual
/-- A node has a draft if all paths in it have canonical forms. -/
theorem exists_ofNode_iff : (n : Node) → (∃ d, Draft.ofNode n = .ok d) ↔
    ∀ m : Node, m.Within n → ∃ target, normalize m.path = .ok target
  | .mk path leaves children => by
    rw [Node.forall_within_mk, ← exists_ofNodes_iff children]
    constructor
    · rintro ⟨d, hd⟩
      obtain ⟨target, ds, hpath, hds, -⟩ := Draft.ofNode_eq_ok_iff.mp hd
      exact ⟨⟨target, hpath⟩, ds, hds⟩
    · rintro ⟨⟨target, hpath⟩, ds, hds⟩
      exact ⟨_, Draft.ofNode_eq_ok_iff.mpr ⟨target, ds, hpath, hds, rfl⟩⟩

theorem exists_ofNodes_iff : (children : List (String × Node)) →
    (∃ ds, Draft.ofNodes children = .ok ds) ↔
      ∀ child ∈ children, ∀ m : Node, m.Within child.2 → ∃ target, normalize m.path = .ok target
  | [] => ⟨fun _ _ h => (List.not_mem_nil h).elim, fun _ => ⟨[], rfl⟩⟩
  | (key, n) :: rest => by
    rw [List.forall_mem_cons, ← exists_ofNode_iff n, ← exists_ofNodes_iff rest]
    constructor
    · rintro ⟨ds, hds⟩
      obtain ⟨d, more, hd, hmore, -⟩ := Draft.ofNodes_cons_eq_ok_iff.mp hds
      exact ⟨⟨d, hd⟩, more, hmore⟩
    · rintro ⟨⟨d, hd⟩, more, hmore⟩
      exact ⟨_, Draft.ofNodes_cons_eq_ok_iff.mpr ⟨d, more, hd, hmore, rfl⟩⟩
end

/-- A valid tree has drafts if its paths have canonical forms and a root marker no leaves. -/
theorem exists_drafts_iff {n : Node} : (∃ ds, n.drafts = .ok ds) ↔
    n.validate = .ok () ∧ (isRoot n.path = true → n.leaves = [])
      ∧ ∀ m : Node, m.Within n → ∃ target, normalize m.path = .ok target := by
  rw [← exists_ofNode_iff n]
  cases hroot : isRoot n.path with
  | true =>
      simp only [Node.drafts_eq_ok_iff_of_isRoot hroot, forall_const]
      obtain ⟨path, leaves, children⟩ := n
      have hpath : normalize path = .ok rootPath := if_pos hroot
      constructor
      · rintro ⟨ds, hvalid, hleaves, hds⟩
        exact ⟨hvalid, hleaves, _, Draft.ofNode_eq_ok_iff.mpr ⟨_, ds, hpath, hds, rfl⟩⟩
      · rintro ⟨hvalid, hleaves, d, hd⟩
        obtain ⟨-, ds, -, hds, -⟩ := Draft.ofNode_eq_ok_iff.mp hd
        exact ⟨ds, hvalid, hleaves, hds⟩
  | false =>
      simp only [Node.drafts_eq_ok_iff hroot]
      constructor
      · rintro ⟨_, hvalid, d, hd, -⟩
        exact ⟨hvalid, by simp, d, hd⟩
      · rintro ⟨hvalid, -, d, hd⟩
        exact ⟨_, hvalid, d, hd, rfl⟩

/-! ## What drafts keep of their trees -/

/-- The drafts of a tree are as many as its nodes, but for a root marker. -/
theorem sizeOfAll_of_drafts {n : Node} {ds : List Draft} (h : n.drafts = .ok ds) :
    Draft.sizeOfAll ds = if isRoot n.path then n.size - 1 else n.size := by
  cases hroot : isRoot n.path with
  | true =>
      obtain ⟨-, -, hds⟩ := (Node.drafts_eq_ok_iff_of_isRoot hroot).mp h
      obtain ⟨path, leaves, children⟩ := n
      rw [if_pos rfl, Node.size, Nat.add_sub_cancel_left]
      exact sizeOfAll_of_ofNodes children hds
  | false =>
      obtain ⟨-, d, hd, rfl⟩ := (Node.drafts_eq_ok_iff hroot).mp h
      rw [Draft.sizeOfAll, Draft.sizeOfAll, size_of_ofNode n hd]
      rfl

/-- The drafts of a tree have the canonical forms of its paths, but for a root marker. -/
theorem pathsOfAll_of_drafts {n : Node} {ds : List Draft} (h : n.drafts = .ok ds) :
    Draft.pathsOfAll ds = (if isRoot n.path then n.pathsBelow else n.paths).map canonicalPath := by
  cases hroot : isRoot n.path with
  | true =>
      obtain ⟨-, -, hds⟩ := (Node.drafts_eq_ok_iff_of_isRoot hroot).mp h
      obtain ⟨path, leaves, children⟩ := n
      exact pathsOfAll_of_ofNodes children hds
  | false =>
      obtain ⟨hvalid, d, hd, rfl⟩ := (Node.drafts_eq_ok_iff hroot).mp h
      rw [Draft.pathsOfAll, Draft.pathsOfAll, List.append_nil, Node.Drafted.paths ⟨hvalid, hd⟩]
      rfl

/-- Inside a sound draft every path extends the one above it. -/
theorem Draft.Sound.extends_within {c d : Draft} (hd : d.Sound) (h : c.Within d) :
    ∀ below ∈ c.children, Extends c.path below.path := by
  induction h with
  | self => exact fun below hbelow => hd.extends_path hbelow
  | child he _ ih => exact ih (hd.child he)

/-- If a path other than the root marker and one below it both have canonical forms, then
these lie below each other as well.  So the drafts of a tree, which it has if it is valid, its
paths have canonical forms and a root marker no leaves, are nested at every depth, hold the
canonical forms of the paths of its nodes, and are as many as these but for a root marker. -/
theorem normalize_keeps_nesting :
    (∀ parent child parent' child', isRoot parent = false → Extends parent child →
        normalize parent = .ok parent' → normalize child = .ok child' → Extends parent' child')
      ∧ ∀ n : Node, ((∃ ds, n.drafts = .ok ds) ↔
          n.validate = .ok () ∧ (isRoot n.path = true → n.leaves = [])
            ∧ ∀ m : Node, m.Within n → ∃ target, normalize m.path = .ok target)
        ∧ ∀ ds, n.drafts = .ok ds →
          (∀ d ∈ ds, ∀ c : Draft, c.Within d → ∀ below ∈ c.children, Extends c.path below.path)
            ∧ Draft.pathsOfAll ds
              = (if isRoot n.path then n.pathsBelow else n.paths).map canonicalPath
            ∧ Draft.sizeOfAll ds = if isRoot n.path then n.size - 1 else n.size := by
  refine ⟨fun parent child parent' child' hroot hextends hparent hchild => ?_,
    fun n => ⟨exists_drafts_iff, fun ds hds => ⟨fun d hd c hc => ?_, ?_, ?_⟩⟩⟩
  · exact normalize_extends hroot hparent hchild hextends
  · exact (sound_of_drafts hds d hd).extends_within hc
  · exact pathsOfAll_of_drafts hds
  · exact sizeOfAll_of_drafts hds

/-- A path whose last step is rearranged, above one with an axis, and a marked tree with a
leaf's text among its paths. -/
theorem normalize_keeps_nesting_of_rearranged :
    let parent := "/a[ @k = \"1\" ]/b[contains(@x,'v')][@y>+07]"
    let child := parent ++ "/ancestor::c[@j=02]"
    let parent' := "/a[@k='1']/b[@y>7][contains(@x,'v')]"
    let child' := "/a[@k='1']/b[@y>7][contains(@x,'v')]/ancestor::c[@j=2]"
    let lowest : Node := .leafless "/a[@k=\"1\"]/x[text()=\"v\"]/ancestor::c"
    let lower : Node := .mk "/a[@k=\"1\"]/x[text()=\"v\"]" [] [(lowest.path, lowest)]
    let tree : Node := .mk "/" [] [("/a[@k=\"1\"]", .mk "/a[@k=\"1\"]" [] [(lower.path, lower)])]
    isRoot parent = false ∧ Extends parent child ∧ normalize parent = .ok parent'
      ∧ normalize child = .ok child' ∧ Extends parent' child'
      ∧ ∃ ds, tree.drafts = .ok ds
        ∧ (∀ d ∈ ds, ∀ c : Draft, c.Within d → ∀ below ∈ c.children, Extends c.path below.path)
        ∧ Draft.pathsOfAll ds = ["/a[@k='1']", "/a[@k='1']/x[text()='v']",
          "/a[@k='1']/x[text()='v']/ancestor::c"]
        ∧ tree.size = 4 ∧ Draft.sizeOfAll ds = 3 := by
  intro parent child parent' child' lowest lower tree
  have hroot : isRoot parent = false := by decide
  have hextends : Extends parent child :=
    ⟨"ancestor::c[@j=02]", by decide, by decide +kernel⟩
  have hparent : normalize parent = .ok parent' := by decide +kernel
  have hchild : normalize child = .ok child' := by decide +kernel
  have hpaths : tree.drafts.toOption.map Draft.pathsOfAll
      = some ["/a[@k='1']", "/a[@k='1']/x[text()='v']",
        "/a[@k='1']/x[text()='v']/ancestor::c"] := by decide +kernel
  obtain ⟨ds, hds, hshown⟩ := Option.map_eq_some_iff.mp hpaths
  have hdrafts := toOption_eq_some_iff.mp hds
  obtain ⟨hnested, htree⟩ := normalize_keeps_nesting
  obtain ⟨hbelow, -, hsize⟩ := (htree tree).2 ds hdrafts
  exact ⟨hroot, hextends, hparent, hchild, hnested _ _ _ _ hroot hextends hparent hchild, ds,
    hdrafts, hbelow, hshown, rfl, hsize⟩

end DataTree
