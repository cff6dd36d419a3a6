import DataTree.Proofs.Outcome
import DataTree.Proofs.Path.Nesting
import DataTree.Store.Draft

/-!
# Drafts of checked trees

A tree is checked on its paths as written and stored under canonical ones.
Its drafts are nested like the tree, so the rows they become hang under rows
whose paths they extend.

## Main definitions

* `Draft.Sound` — a draft with canonical paths, each below the one above it.

## Main results

* `sound_of_drafts` — the drafts of a tree are sound.
-/

namespace DataTree

open DataTree.Path

/-- A draft whose paths are canonical, none of them the root marker, and in
which every path extends the one above it. -/
inductive Draft.Sound : Draft → Prop where
  | mk {path attributes : String} {children : List Draft} :
      normalize path = .ok path → isRoot path = false →
      (∀ c ∈ children, Extends path c.path) → (∀ c ∈ children, c.Sound) →
        Sound (.mk path attributes children)

namespace Draft.Sound

variable {d : Draft}

theorem normalize_path (h : d.Sound) : normalize d.path = .ok d.path := by
  cases h with
  | mk hpath _ _ _ => exact hpath

theorem isRoot_path (h : d.Sound) : isRoot d.path = false := by
  cases h with
  | mk _ hroot _ _ => exact hroot

theorem extends_path (h : d.Sound) {c : Draft} (hc : c ∈ d.children) : Extends d.path c.path := by
  cases h with
  | mk _ _ hextends _ => exact hextends c hc

theorem child (h : d.Sound) {c : Draft} (hc : c ∈ d.children) : c.Sound := by
  cases h with
  | mk _ _ _ hchildren => exact hchildren c hc

end Draft.Sound

/-! ## Drafts of one tree -/

/-- The canonical form of a path of a node is not the root marker either. -/
theorem canonical_of_normalize {path target : String} (hroot : isRoot path = false)
    (h : normalize path = .ok target) :
    normalize target = .ok target ∧ isRoot target = false := by
  refine ⟨normalize_normalize h, ?_⟩
  unfold Path.normalize at h
  rw [hroot] at h
  obtain ⟨q, hq, rfl⟩ := map_eq_ok_iff.mp h
  exact isRoot_normalized hq

namespace Draft

theorem ofNode_eq_ok_iff {path : String} {leaves : Leaves} {children : List (String × Node)}
    {d : Draft} :
    ofNode (.mk path leaves children) = .ok d ↔
      ∃ target ds, normalize path = .ok target ∧ ofNodes children = .ok ds
        ∧ d = .mk target leaves.text ds := by
  rw [ofNode]
  split
  · rename_i hpath
    simp [hpath]
  · rename_i target hpath
    split
    · rename_i hchildren
      simp [hchildren]
    · rename_i ds hchildren
      simp [hpath, hchildren, eq_comm]

theorem ofNodes_cons_eq_ok_iff {key : String} {n : Node} {rest : List (String × Node)}
    {ds : List Draft} :
    ofNodes ((key, n) :: rest) = .ok ds ↔
      ∃ d more, ofNode n = .ok d ∧ ofNodes rest = .ok more ∧ ds = d :: more := by
  rw [ofNodes]
  split
  · rename_i hn
    simp [hn]
  · rename_i d hn
    split
    · rename_i hrest
      simp [hrest]
    · rename_i more hrest
      simp [hn, hrest, eq_comm]

theorem path_of_ofNode {n : Node} {d : Draft} (h : ofNode n = .ok d) :
    normalize n.path = .ok d.path := by
  obtain ⟨path, leaves, children⟩ := n
  obtain ⟨target, ds, hpath, -, rfl⟩ := ofNode_eq_ok_iff.mp h
  exact hpath

end Draft

namespace Node

/-- A node is valid if it has a path, scalars and lists of scalars as leaves,
and valid children. -/
theorem validate_eq_ok_iff {path : String} {leaves : Leaves} {children : List (String × Node)} :
    (Node.mk path leaves children).validate = .ok () ↔
      path ≠ "" ∧ badLeaf? leaves = none ∧ validateAll path children = .ok () := by
  rw [validate]
  by_cases hpath : path = ""
  · simp [hpath]
  · cases hleaf : badLeaf? leaves with
    | some leaf => simp [hpath]
    | none => simp [hpath]

theorem validate_eq_ok {path : String} {leaves : Leaves} {children : List (String × Node)}
    (h : (Node.mk path leaves children).validate = .ok ()) :
    validateAll path children = .ok () :=
  (validate_eq_ok_iff.mp h).2.2

theorem validateAll_cons_eq_ok_iff {parent key : String} {n : Node}
    {rest : List (String × Node)} :
    validateAll parent ((key, n) :: rest) = .ok () ↔
      isChildPath parent n.path = true ∧ n.validate = .ok ()
        ∧ validateAll parent rest = .ok () := by
  rw [validateAll]
  split
  · rename_i hchild
    split
    · rename_i hn
      simp [hn]
    · rename_i hn
      simp [hchild, hn]
  · rename_i hchild
    simp [hchild]

theorem validateAll_eq_ok_iff {parent : String} {children : List (String × Node)} :
    validateAll parent children = .ok () ↔
      ∀ c ∈ children, isChildPath parent c.2.path = true ∧ c.2.validate = .ok () := by
  induction children with
  | nil => simp [validateAll]
  | cons c rest ih =>
      rw [validateAll_cons_eq_ok_iff, ih, List.forall_mem_cons, and_assoc]

/-- A root marker without leaves stands for its children. -/
theorem drafts_eq_ok_iff_of_isRoot {n : Node} (hroot : isRoot n.path = true) {ds : List Draft} :
    n.drafts = .ok ds ↔
      n.validate = .ok () ∧ n.leaves = [] ∧ Draft.ofNodes n.keyedChildren = .ok ds := by
  rw [drafts]
  cases hvalid : n.validate with
  | error defect => simp
  | ok _ =>
      dsimp only
      rw [if_pos hroot]
      split
      · rename_i hleaves
        simp [mapError_eq_ok_iff, List.isEmpty_iff.mp hleaves]
      · rename_i hleaves
        simp [mt List.isEmpty_iff.mpr hleaves]

/-- Any other node stands for itself. -/
theorem drafts_eq_ok_iff {n : Node} (hroot : isRoot n.path = false) {ds : List Draft} :
    n.drafts = .ok ds ↔ n.validate = .ok () ∧ ∃ d, Draft.ofNode n = .ok d ∧ [d] = ds := by
  rw [drafts]
  cases hvalid : n.validate with
  | error defect => simp
  | ok _ => simp [hroot, mapError_eq_ok_iff, map_eq_ok_iff]

end Node

mutual
/-- The draft of a checked node is sound. -/
theorem sound_of_ofNode : (n : Node) → {d : Draft} → n.validate = .ok () →
    isRoot n.path = false → Draft.ofNode n = .ok d → d.Sound
  | .mk path leaves children, d => by
    intro hvalid hroot h
    obtain ⟨target, ds, hpath, hchildren, rfl⟩ := Draft.ofNode_eq_ok_iff.mp h
    obtain ⟨hcanonical, hroot'⟩ := canonical_of_normalize hroot hpath
    have hbelow := sound_of_ofNodes children (Node.validate_eq_ok hvalid) hchildren
    refine .mk hcanonical hroot' (fun c hc => ?_) (fun c hc => (hbelow c hc).1)
    obtain ⟨-, child, hchild, hnested⟩ := hbelow c hc
    exact normalize_extends hroot hpath hchild ((isChildPath_iff hroot).mp hnested)

/-- The drafts of the checked children of a node are sound, and their paths
come from child paths of that node. -/
theorem sound_of_ofNodes {parent : String} : (children : List (String × Node)) →
    {ds : List Draft} → Node.validateAll parent children = .ok () →
    Draft.ofNodes children = .ok ds → ∀ d ∈ ds,
      d.Sound ∧ ∃ child, normalize child = .ok d.path ∧ Node.isChildPath parent child = true
  | [], ds => by
    intro _ h d hd
    cases h
    cases hd
  | (key, n) :: rest, ds => by
    intro hvalid h d hd
    obtain ⟨first, more, hn, hrest, rfl⟩ := Draft.ofNodes_cons_eq_ok_iff.mp h
    obtain ⟨hnested, hnvalid, hrestValid⟩ := Node.validateAll_cons_eq_ok_iff.mp hvalid
    rcases List.mem_cons.mp hd with rfl | hd
    · exact ⟨sound_of_ofNode n hnvalid (isRoot_of_isChildPath hnested) hn, n.path,
        Draft.path_of_ofNode hn, hnested⟩
    · exact sound_of_ofNodes rest hrestValid hrest d hd
end

/-! ## Drafts of many trees -/

theorem sound_of_drafts {n : Node} {ds : List Draft} (h : n.drafts = .ok ds) :
    ∀ d ∈ ds, d.Sound := by
  intro d hd
  cases hroot : isRoot n.path with
  | true =>
      obtain ⟨hvalid, -, hds⟩ := (Node.drafts_eq_ok_iff_of_isRoot hroot).mp h
      obtain ⟨path, leaves, children⟩ := n
      exact (sound_of_ofNodes children (Node.validate_eq_ok hvalid) hds d hd).1
  | false =>
      obtain ⟨hvalid, d', hd', rfl⟩ := (Node.drafts_eq_ok_iff hroot).mp h
      rw [List.mem_singleton.mp hd]
      exact sound_of_ofNode n hvalid hroot hd'

theorem draftsOfAll_cons_eq_ok_iff {n : Node} {rest : List Node} {ds : List Draft} :
    Node.draftsOfAll (n :: rest) = .ok ds ↔
      ∃ own more, n.drafts = .ok own ∧ Node.draftsOfAll rest = .ok more ∧ ds = own ++ more := by
  rw [Node.draftsOfAll]
  split
  · rename_i hn
    simp [hn]
  · rename_i own hn
    split
    · rename_i hrest
      simp [hrest]
    · rename_i more hrest
      simp [hn, hrest, eq_comm]

theorem sound_of_draftsOfAll {nodes : List Node} {ds : List Draft}
    (h : Node.draftsOfAll nodes = .ok ds) : ∀ d ∈ ds, d.Sound := by
  induction nodes generalizing ds with
  | nil =>
      cases h
      simp
  | cons n rest ih =>
      obtain ⟨own, more, hn, hrest, rfl⟩ := draftsOfAll_cons_eq_ok_iff.mp h
      intro d hd
      rcases List.mem_append.mp hd with hd | hd
      · exact sound_of_drafts hn d hd
      · exact ih hrest d hd

end DataTree
