import DataTree.Proofs.Store.Reading
import DataTree.Store.Write

/-!
# Listed trees

A list of nodes names the trees to be written.  A root marker in it stands
for its children, so the drafts of a list correspond one to one to the nodes
listed.

## Main definitions

* `Node.listed` — the nodes that a list names.
* `Node.paths`, `Node.pathsBelow` — the paths of a tree, with its own and
  without.
* `Store.listedRow?` — the row stored at the path of a node.

## Main results

* `forall₂_of_draftsOfAll` — listed nodes and drafts correspond.
* `map_canonicalPath_of_drafted`, `pathsOfAll_of_drafted` — so do their paths.
-/

namespace DataTree

open DataTree.Path

namespace Node

/-- The nodes that a list names: a root marker stands for its children. -/
def listed (nodes : List Node) : List Node :=
  nodes.flatMap fun n => if isRoot n.path then n.children else [n]

mutual
/-- The paths inside a tree as they are written, without its own. -/
def pathsBelow : Node → List String
  | mk _ _ children => pathsBelowAll children

def pathsBelowAll : List (String × Node) → List String
  | [] => []
  | (_, child) :: rest => child.path :: pathsBelow child ++ pathsBelowAll rest
end

/-- The paths of a tree as they are written, in preorder. -/
def paths (n : Node) : List String := n.path :: n.pathsBelow

end Node

/-- The row stored at the path of a node. -/
def Store.listedRow? (s : Store) (owner : Owner) (n : Node) : Option Row :=
  s.rowAt? owner.id (canonicalPath n.path)

/-! ## Drafts of listed nodes -/

theorem Node.Drafted.path {n : Node} {d : Draft} (h : n.Drafted d) :
    canonicalPath n.path = d.path :=
  canonicalPath_eq (Draft.path_of_ofNode h.2)

theorem Node.Drafted.listedRow? {n : Node} {d : Draft} (h : n.Drafted d) (s : Store)
    (owner : Owner) : s.listedRow? owner n = s.rowAt? owner.id d.path := by
  rw [Store.listedRow?, h.path]

/-- Checked children and their drafts, in order. -/
theorem forall₂_of_ofNodes {parent : String} {children : List (String × Node)} {ds : List Draft}
    (hvalid : Node.validateAll parent children = .ok ())
    (h : Draft.ofNodes children = .ok ds) :
    List.Forall₂ Node.Drafted (children.map (·.2)) ds := by
  induction children generalizing ds with
  | nil =>
      cases h
      exact .nil
  | cons child rest ih =>
      obtain ⟨d, more, hd, hmore, rfl⟩ := Draft.ofNodes_cons_eq_ok_iff.mp h
      obtain ⟨-, hn, hrest⟩ := Node.validateAll_cons_eq_ok_iff.mp hvalid
      exact .cons ⟨hn, hd⟩ (ih hrest hmore)

theorem forall₂_of_drafts {n : Node} {ds : List Draft} (h : n.drafts = .ok ds) :
    List.Forall₂ Node.Drafted (if isRoot n.path then n.children else [n]) ds := by
  cases hroot : isRoot n.path with
  | true =>
      obtain ⟨hvalid, -, hds⟩ := (Node.drafts_eq_ok_iff_of_isRoot hroot).mp h
      obtain ⟨path, leaves, children⟩ := n
      exact forall₂_of_ofNodes (Node.validate_eq_ok hvalid) hds
  | false =>
      obtain ⟨hvalid, d, hd, rfl⟩ := (Node.drafts_eq_ok_iff hroot).mp h
      exact .cons ⟨hvalid, hd⟩ .nil

/-- The drafts of a list are those of the nodes it names, in order. -/
theorem forall₂_of_draftsOfAll {nodes : List Node} {ds : List Draft}
    (h : Node.draftsOfAll nodes = .ok ds) : List.Forall₂ Node.Drafted (Node.listed nodes) ds := by
  induction nodes generalizing ds with
  | nil =>
      cases h
      exact .nil
  | cons n rest ih =>
      obtain ⟨own, more, hown, hmore, rfl⟩ := draftsOfAll_cons_eq_ok_iff.mp h
      rw [Node.listed, List.flatMap_cons]
      exact List.rel_append (forall₂_of_drafts hown) (ih hmore)

/-- So are those of nodes that go under a parent. -/
theorem forall₂_of_draftsUnder {parent : String} {nodes : List Node} {ds : List Draft}
    (h : draftsUnder parent nodes = .ok ds) :
    List.Forall₂ Node.Drafted (Node.listed nodes) ds := by
  induction nodes generalizing ds with
  | nil =>
      cases h
      exact .nil
  | cons n rest ih =>
      rw [draftsUnder] at h
      obtain ⟨own, hown, h⟩ := bind_eq_ok_iff.mp h
      split at h
      · cases h
      · obtain ⟨more, hmore, h⟩ := bind_eq_ok_iff.mp h
        cases h
        rw [Node.listed, List.flatMap_cons]
        exact List.rel_append (forall₂_of_drafts hown) (ih hmore)

/-- The children of a drafted node are drafted. -/
theorem Node.Drafted.forall₂ {n : Node} {d : Draft} (h : n.Drafted d) :
    List.Forall₂ Node.Drafted n.children d.children := by
  obtain ⟨hvalid, h⟩ := h
  obtain ⟨path, leaves, children⟩ := n
  obtain ⟨target, ds, -, hds, rfl⟩ := Draft.ofNode_eq_ok_iff.mp h
  exact forall₂_of_ofNodes (Node.validate_eq_ok hvalid) hds

theorem Node.Exact.child {n m : Node} (h : n.Exact) (hm : m ∈ n.children) : m.Exact := by
  obtain ⟨path, leaves, children⟩ := n
  have hall : Node.AllExact children := h.2
  have hmem : m ∈ children.map (·.2) := hm
  clear h hm
  induction children with
  | nil => cases hmem
  | cons child rest ih =>
      rcases List.mem_cons.mp hmem with rfl | hmem
      · exact hall.1
      · exact ih hall.2 hmem

section

variable {ns : List Node} {ds : List Draft} (h : List.Forall₂ Node.Drafted ns ds)

include h

theorem exists_drafted {n : Node} (hn : n ∈ ns) : ∃ d ∈ ds, n.Drafted d := by
  induction h with
  | nil => cases hn
  | @cons m d rest more hd _ ih =>
      rcases List.mem_cons.mp hn with rfl | hn
      · exact ⟨d, List.mem_cons_self, hd⟩
      · obtain ⟨c, hc, hc'⟩ := ih hn
        exact ⟨c, List.mem_cons_of_mem _ hc, hc'⟩

theorem exists_listed {d : Draft} (hd : d ∈ ds) : ∃ n ∈ ns, n.Drafted d := by
  induction h with
  | nil => cases hd
  | @cons m c rest more hc _ ih =>
      rcases List.mem_cons.mp hd with rfl | hd
      · exact ⟨m, List.mem_cons_self, hc⟩
      · obtain ⟨n, hn, hn'⟩ := ih hd
        exact ⟨n, List.mem_cons_of_mem _ hn, hn'⟩

/-- The paths of drafts are the canonical forms of those of their nodes. -/
theorem map_canonicalPath_of_drafted :
    (ns.map fun n => canonicalPath n.path) = ds.map Draft.path := by
  induction h with
  | nil => rfl
  | cons hd _ ih => rw [List.map_cons, List.map_cons, ih, hd.path]

end

/-! ## Paths inside a tree -/

mutual
/-- The paths inside a draft are the canonical forms of those inside its
node, in the same order. -/
theorem pathsOfAll_children : (n : Node) → {d : Draft} → Draft.ofNode n = .ok d →
    Draft.pathsOfAll d.children = n.pathsBelow.map canonicalPath
  | .mk path leaves children, d => by
    intro h
    obtain ⟨target, ds, -, hds, rfl⟩ := Draft.ofNode_eq_ok_iff.mp h
    exact pathsOfAll_of_ofNodes children hds

theorem pathsOfAll_of_ofNodes : (children : List (String × Node)) → {ds : List Draft} →
    Draft.ofNodes children = .ok ds →
    Draft.pathsOfAll ds = (Node.pathsBelowAll children).map canonicalPath
  | [], ds => by
    intro h
    cases h
    rfl
  | (key, n) :: rest, ds => by
    intro h
    obtain ⟨d, more, hd, hmore, rfl⟩ := Draft.ofNodes_cons_eq_ok_iff.mp h
    have hpath := canonicalPath_eq (Draft.path_of_ofNode hd)
    have hbelow := pathsOfAll_children n hd
    have hrest := pathsOfAll_of_ofNodes rest hmore
    obtain ⟨path, attributes, children⟩ := d
    rw [Draft.pathsOfAll, Draft.paths, Node.pathsBelowAll, List.map_append, List.map_cons, hpath,
      ← hbelow, ← hrest]
    rfl
end

/-- The paths of a draft are the canonical forms of those of its node. -/
theorem Node.Drafted.paths {n : Node} {d : Draft} (h : n.Drafted d) :
    d.paths = n.paths.map canonicalPath := by
  have hpath := h.path
  have hbelow := pathsOfAll_children n h.2
  obtain ⟨path, attributes, children⟩ := d
  rw [Node.paths, List.map_cons, hpath, ← hbelow]
  rfl

theorem pathsOfAll_of_drafted {ns : List Node} {ds : List Draft}
    (h : List.Forall₂ Node.Drafted ns ds) :
    Draft.pathsOfAll ds = (ns.flatMap Node.paths).map canonicalPath := by
  induction h with
  | nil => rfl
  | cons hd _ ih => rw [Draft.pathsOfAll, List.flatMap_cons, List.map_append, hd.paths, ih]

/-! ## Sizes -/

mutual
/-- A draft has as many rows as its node has nodes. -/
theorem size_of_ofNode : (n : Node) → {d : Draft} → Draft.ofNode n = .ok d → d.size = n.size
  | .mk path leaves children, d => by
    intro h
    obtain ⟨target, ds, -, hds, rfl⟩ := Draft.ofNode_eq_ok_iff.mp h
    rw [Draft.size, Node.size, sizeOfAll_of_ofNodes children hds]

theorem sizeOfAll_of_ofNodes : (children : List (String × Node)) → {ds : List Draft} →
    Draft.ofNodes children = .ok ds → Draft.sizeOfAll ds = Node.sizeOfAll children
  | [], ds => by
    intro h
    cases h
    rfl
  | (key, n) :: rest, ds => by
    intro h
    obtain ⟨d, more, hd, hmore, rfl⟩ := Draft.ofNodes_cons_eq_ok_iff.mp h
    rw [Draft.sizeOfAll, Node.sizeOfAll, size_of_ofNode n hd, sizeOfAll_of_ofNodes rest hmore]
end

/-! ## Nodes of listed drafts -/

/-- The drafts of nodes without doubles stand for these nodes. -/
theorem map_node_of_drafted {ns : List Node} {ds : List Draft}
    (h : List.Forall₂ Node.Drafted ns ds) (hexact : ∀ n ∈ ns, n.Exact) :
    ds.map Draft.node = ns.map Node.canonical ∧ ∀ d ∈ ds, d.Exact := by
  induction h with
  | nil => exact ⟨rfl, by simp⟩
  | @cons n d ns ds hd _ ih =>
      obtain ⟨hnode, hd'⟩ := node_of_ofNode n hd.1 (hexact n List.mem_cons_self) hd.2
      obtain ⟨hnodes, hds⟩ := ih fun m hm => hexact m (List.mem_cons_of_mem _ hm)
      refine ⟨by rw [List.map_cons, List.map_cons, hnode, hnodes], fun c hc => ?_⟩
      rcases List.mem_cons.mp hc with rfl | hc
      · exact hd'
      · exact hds c hc

end DataTree
