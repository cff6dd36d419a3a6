import DataTree.Proofs.Json.Values
import DataTree.Proofs.Store.Drafts
import DataTree.Proofs.Store.Settled
import DataTree.Store.Lookup
import Mathlib.Tactic.Choose

/-!
# Reading stored subtrees

A node is read together with everything below it in one pass over the rows.
Where the subtree of a row is settled on the draft of a node without
doubles, this gives the node back, with its paths in canonical form.

## Main definitions

* `Node.canonical` — a node with canonical paths.
* `Node.Exact`, `Draft.Exact` — trees whose leaves read back as they are.

## Main results

* `childNodes_filter` — rows elsewhere do not matter to a read.
* `childNodes_all` — children are read like any other row.
* `node_of_settled` — a settled row reads as the draft it is settled on.
-/

namespace DataTree

open DataTree.Path

/-! ## Canonical nodes -/

/-- The canonical form of a path, if it has one. -/
def canonicalPath (path : String) : String := (normalize path).toOption.getD path

theorem canonicalPath_eq {path target : String} (h : normalize path = .ok target) :
    canonicalPath path = target := by
  rw [canonicalPath, h]
  rfl

namespace Node

mutual
/-- The node with all paths in canonical form, and each child under its
path. -/
def canonical : Node → Node
  | mk path leaves children =>
    mk (canonicalPath path) leaves (Keyed.ofList (canonicalChildren children))

def canonicalChildren : List (String × Node) → List (String × Node)
  | [] => []
  | (_, child) :: rest => (canonicalPath child.path, canonical child) :: canonicalChildren rest
end

mutual
/-- Whether all leaves of a tree are without doubles. -/
def Exact : Node → Prop
  | mk _ leaves children => leaves.Exact ∧ AllExact children

def AllExact : List (String × Node) → Prop
  | [] => True
  | (_, child) :: rest => Exact child ∧ AllExact rest
end

/-- A node and the draft it is checked and turned into. -/
def Drafted (n : Node) (d : Draft) : Prop := n.validate = .ok () ∧ Draft.ofNode n = .ok d

end Node

/-! ## The nodes of drafts -/

namespace Draft

/-- A draft whose leaves are texts of leaves without doubles. -/
inductive Exact : Draft → Prop where
  | mk {path attributes : String} {leaves : Leaves} {children : List Draft} :
      Leaves.parse attributes = some leaves → leaves.Exact → (∀ c ∈ children, c.Exact) →
        Exact (.mk path attributes children)

theorem Exact.child {d c : Draft} (h : d.Exact) (hc : c ∈ d.children) : c.Exact := by
  cases h with
  | mk _ _ hchildren => exact hchildren c hc

mutual
/-- The node that a draft stands for. -/
def node : Draft → Node
  | mk path attributes children =>
    .mk path ((Leaves.parse attributes).getD []) (Keyed.ofList (keyedNodes children))

def keyedNodes : List Draft → List (String × Node)
  | [] => []
  | d :: rest => (d.path, node d) :: keyedNodes rest
end

theorem path_node (d : Draft) : d.node.path = d.path := by
  obtain ⟨path, attributes, children⟩ := d
  rfl

theorem keyedNodes_eq (ds : List Draft) : keyedNodes ds = ds.map fun d => (d.path, d.node) := by
  induction ds with
  | nil => rfl
  | cons d rest ih => rw [keyedNodes, ih, List.map_cons]

end Draft

theorem Node.badLeaf?_of_validate {path : String} {leaves : Leaves}
    {children : List (String × Node)} (h : (Node.mk path leaves children).validate = .ok ()) :
    Node.badLeaf? leaves = none :=
  (Node.validate_eq_ok_iff.mp h).2.1

mutual
/-- The draft of a checked node without doubles stands for that node. -/
theorem node_of_ofNode : (n : Node) → {d : Draft} → n.validate = .ok () → n.Exact →
    Draft.ofNode n = .ok d → d.node = n.canonical ∧ d.Exact
  | .mk path leaves children, d => by
    intro hvalid hexact h
    obtain ⟨target, ds, hpath, hchildren, rfl⟩ := Draft.ofNode_eq_ok_iff.mp h
    have hparse := Leaves.parse_text hexact.1 (Node.badLeaf?_of_validate hvalid)
    obtain ⟨hnodes, hbelow⟩ :=
      node_of_ofNodes children (Node.validate_eq_ok hvalid) hexact.2 hchildren
    refine ⟨?_, .mk hparse hexact.1 hbelow⟩
    rw [Draft.node, hparse, Node.canonical, canonicalPath_eq hpath, hnodes]
    rfl

theorem node_of_ofNodes {parent : String} : (children : List (String × Node)) →
    {ds : List Draft} → Node.validateAll parent children = .ok () → Node.AllExact children →
    Draft.ofNodes children = .ok ds →
    Draft.keyedNodes ds = Node.canonicalChildren children ∧ ∀ d ∈ ds, d.Exact
  | [], ds => by
    intro _ _ h
    cases h
    exact ⟨rfl, by simp⟩
  | (key, n) :: rest, ds => by
    intro hvalid hexact h
    obtain ⟨d, more, hn, hrest, rfl⟩ := Draft.ofNodes_cons_eq_ok_iff.mp h
    obtain ⟨-, hnvalid, hrestValid⟩ := Node.validateAll_cons_eq_ok_iff.mp hvalid
    obtain ⟨hnode, hd⟩ := node_of_ofNode n hnvalid hexact.1 hn
    obtain ⟨hnodes, hmore⟩ := node_of_ofNodes rest hrestValid hexact.2 hrest
    refine ⟨?_, fun c hc => ?_⟩
    · rw [Draft.keyedNodes, Node.canonicalChildren, hnode, hnodes,
        canonicalPath_eq (Draft.path_of_ofNode hn)]
    · rcases List.mem_cons.mp hc with rfl | hc
      · exact hd
      · exact hmore c hc
end

/-! ## One pass over the rows -/

theorem childNodes_append_of_none {fetch : Fetch} {parent : Nat} {done : List Row}
    (h : ∀ r ∈ done, r.parent ≠ some parent) (rest : List Row) :
    childNodes fetch parent (done ++ rest) = childNodes fetch parent rest := by
  induction done with
  | nil => rfl
  | cons r done ih =>
      rw [List.cons_append, childNodes, if_neg (h r List.mem_cons_self)]
      exact ih fun q hq => h q (List.mem_cons_of_mem _ hq)

/-- The nodes below a row, which a read may leave out. -/
def nodesBelow (fetch : Fetch) (r : Row) (rows : List Row) : Outcome (List Node) :=
  if fetch.hasNext then childNodes fetch.next r.id rows else .ok []

theorem childNodes_cons {fetch : Fetch} {parent : Nat} {r : Row} (h : r.parent = some parent)
    (rest : List Row) :
    childNodes fetch parent (r :: rest) = nodesBelow fetch r rest >>= fun below =>
      assemble r below >>= fun n =>
        childNodes fetch parent rest >>= fun more => .ok (n :: more) := by
  rw [childNodes, if_pos h, nodesBelow]
  split <;> rfl

/-- A pass over some of the rows reads the same, if they have the rows that
hang under it: those that hang under a row, each to be read to depth `fetch`,
as far as `P fetch` holds of its id. -/
theorem childNodes_filter_of_depth {P : Fetch → Nat → Prop} {keep : Row → Bool} {rows : List Row}
    (h : ∀ c ∈ rows, ∀ g fetch, c.parent = some g → P fetch g →
      keep c = true ∧ (fetch.hasNext = true → P fetch.next c.id))
    {fetch : Fetch} {p : Nat} (hp : P fetch p) :
    childNodes fetch p (rows.filter keep) = childNodes fetch p rows := by
  induction rows generalizing fetch p with
  | nil => rfl
  | cons r rest ih =>
      have hrest := fun c hc => h c (List.mem_cons_of_mem r hc)
      by_cases hparent : r.parent = some p
      · obtain ⟨hkeep, hr⟩ := h r List.mem_cons_self p fetch hparent hp
        have hbelow : nodesBelow fetch r (rest.filter keep) = nodesBelow fetch r rest := by
          rw [nodesBelow, nodesBelow]
          split
          · rename_i hnext
            exact ih hrest (hr hnext)
          · rfl
        rw [List.filter_cons_of_pos hkeep, childNodes_cons hparent, childNodes_cons hparent, hbelow,
          ih hrest hp]
      · cases hkeep : keep r with
        | false =>
            rw [List.filter_cons_of_neg (by simp [hkeep]), childNodes, if_neg hparent,
              ih hrest hp]
        | true =>
            rw [List.filter_cons_of_pos hkeep, childNodes, childNodes, if_neg hparent,
              if_neg hparent, ih hrest hp]

/-- So it does if with each row whose id is in `K` they have the rows that
hang under it. -/
theorem childNodes_filter {K : Nat → Prop} {keep : Row → Bool} {rows : List Row}
    (h : ∀ c ∈ rows, ∀ g, c.parent = some g → K g → keep c = true ∧ K c.id) (fetch : Fetch)
    {p : Nat} (hp : K p) : childNodes fetch p (rows.filter keep) = childNodes fetch p rows := by
  refine childNodes_filter_of_depth (P := fun _ => K) (fun c hc g _ hg hK => ?_) hp
  exact ⟨(h c hc g hg hK).1, fun _ => (h c hc g hg hK).2⟩

/-- So does the read of a row. -/
theorem node_of_filter {s t : Store} {K : Nat → Prop} {keep : Row → Bool}
    (hrows : t.rows = s.rows.filter keep)
    (h : ∀ c ∈ s.rows, ∀ g, c.parent = some g → K g → keep c = true ∧ K c.id) (fetch : Fetch)
    {r : Row} (hr : K r.id) : t.node fetch r = s.node fetch r := by
  rw [Store.node, Store.node, hrows, childNodes_filter h fetch.next hr]

theorem node_eq (s : Store) (fetch : Fetch) (r : Row) :
    s.node fetch r = nodesBelow fetch r s.rows >>= assemble r := by
  rw [Store.node, nodesBelow]
  split <;> rfl

/-- Rows whose leaves can be read can be read with everything below them. -/
theorem exists_childNodes {rows : List Row}
    (h : ∀ r ∈ rows, ∃ leaves, Leaves.parse r.attributes = some leaves) (fetch : Fetch)
    (p : Nat) : ∃ children, childNodes fetch p rows = .ok children := by
  induction rows generalizing fetch p with
  | nil => exact ⟨[], rfl⟩
  | cons r rest ih =>
      have hrest := fun q hq => h q (List.mem_cons_of_mem r hq)
      obtain ⟨more, hmore⟩ := ih hrest fetch p
      by_cases hparent : r.parent = some p
      · obtain ⟨below, hbelow⟩ := ih hrest fetch.next r.id
        obtain ⟨leaves, hleaves⟩ := h r List.mem_cons_self
        rw [childNodes, if_pos hparent, hbelow, hmore]
        simp only [assemble, hleaves]
        split <;> exact ⟨_, rfl⟩
      · rw [childNodes, if_neg hparent]
        exact ⟨more, hmore⟩

theorem exists_node {s : Store}
    (h : ∀ r ∈ s.rows, ∃ leaves, Leaves.parse r.attributes = some leaves) (fetch : Fetch)
    {r : Row} (hr : r ∈ s.rows) : ∃ n, s.node fetch r = .ok n := by
  obtain ⟨children, hchildren⟩ := exists_childNodes h fetch.next r.id
  obtain ⟨leaves, hleaves⟩ := h r hr
  rw [Store.node, hchildren]
  simp only [assemble, hleaves]
  split <;> exact ⟨_, rfl⟩

theorem node_all (s : Store) (r : Row) :
    s.node .all r = childNodes .all r.id s.rows >>= assemble r := rfl

/-- The children of a row are read like any other row: the rows below them
come later in the table. -/
theorem childNodes_all {s : Store} (h : Ordered s.rows) (r : Row) :
    childNodes .all r.id s.rows = (childrenIn s.rows r).mapM (s.node .all) := by
  suffices hsuffix : ∀ rest done, s.rows = done ++ rest →
      childNodes .all r.id rest = (rest.filter fun c => c.parent = some r.id).mapM (s.node .all) by
    exact hsuffix s.rows [] rfl
  intro rest
  induction rest with
  | nil =>
      intro _ _
      rfl
  | cons q rest ih =>
      intro done hrows
      have hrows' : s.rows = (done ++ [q]) ++ rest := by simp [hrows]
      have hrest := ih (done ++ [q]) hrows'
      rw [childNodes]
      by_cases hparent : q.parent = some r.id
      · have hbefore : ∀ c ∈ done ++ [q], c.parent ≠ some q.id := by
          intro c hc hcq
          have hlt := h.parents c (by rw [hrows']; exact List.mem_append_left _ hc) q.id hcq
          rcases List.mem_append.mp hc with hc | hc
          · have hids := h.ids
            rw [hrows] at hids
            have := (List.pairwise_append.mp hids).2.2 c hc q List.mem_cons_self
            omega
          · rw [List.mem_singleton.mp hc] at hlt
            omega
        have hchildren : childNodes .all q.id rest = childNodes .all q.id s.rows := by
          rw [hrows', childNodes_append_of_none hbefore]
        rw [if_pos hparent, List.filter_cons_of_pos (by simpa using hparent), List.mapM_cons,
          node_all, ← hrest, ← hchildren]
        show (childNodes .all q.id rest >>= fun children => assemble q children >>= fun node =>
          childNodes .all r.id rest >>= fun more => .ok (node :: more)) = _
        cases childNodes .all q.id rest with
        | error e => rfl
        | ok children => rfl
      · rw [if_neg hparent, List.filter_cons_of_neg (by simpa using hparent), hrest]

/-! ## Settled rows -/

theorem addChildren_eq (path : String) (leaves : Leaves) (keyed : Keyed Node)
    (children : List Node) :
    (Node.mk path leaves keyed).addChildren children
      = .mk path leaves (Keyed.insertAll keyed (children.map fun n => (n.path, n))) := by
  induction children generalizing keyed with
  | nil => rfl
  | cons n rest ih =>
      show ((Node.mk path leaves keyed).addChild n).addChildren rest = _
      rw [Node.addChild, Node.path, Node.leaves, Node.keyedChildren, ih]
      rfl

/-- A row reads as a node of its path, with the children under theirs. -/
theorem assemble_eq_ok_iff {r : Row} {children : List Node} {n : Node} :
    assemble r children = .ok n ↔ ∃ leaves, Leaves.parse r.attributes = some leaves
      ∧ n = .mk r.path leaves (Keyed.ofList (children.map fun c => (c.path, c))) := by
  unfold assemble
  split
  · rename_i hleaves
    simp [hleaves]
  · rename_i leaves hleaves
    rw [addChildren_eq, ← Keyed.ofList]
    simp [hleaves, eq_comm]

theorem path_of_node {s : Store} {fetch : Fetch} {r : Row} {n : Node}
    (h : s.node fetch r = .ok n) : n.path = r.path := by
  rw [node_eq] at h
  obtain ⟨children, -, hassemble⟩ := bind_eq_ok_iff.mp h
  obtain ⟨leaves, -, rfl⟩ := assemble_eq_ok_iff.mp hassemble
  rfl

theorem map_path_of_mapM_node {s : Store} {fetch : Fetch} {rows : List Row} {ns : List Node}
    (h : rows.mapM (s.node fetch) = .ok ns) : ns.map Node.path = rows.map Row.path := by
  have hpaths := mapM_eq_ok_map (g := fun r => (.ok r.path : Outcome String)) (k := Node.path) h
    fun r _ n hn => by rw [path_of_node hn]
  rw [mapM_eq_ok (g := Row.path) fun r _ => rfl] at hpaths
  exact (Except.ok.inj hpaths).symm

/-- Rows picked by their paths read as the nodes picked by theirs. -/
theorem mapM_node_filter {s : Store} {fetch : Fetch} {rows : List Row} {ns : List Node}
    (h : rows.mapM (s.node fetch) = .ok ns) (p : String → Bool) :
    (rows.filter fun r => p r.path).mapM (s.node fetch) = .ok (ns.filter fun n => p n.path) := by
  have hpicked := mapM_filter_map (p := fun r => p r.path) (q := fun n => p n.path) (k := id) h
    fun r _ n hn => ⟨by rw [path_of_node hn], hn⟩
  rwa [List.map_id] at hpicked

/-- A row with further children is the same node with further children. -/
theorem assemble_append {r : Row} {children : List Node} {n : Node}
    (h : assemble r children = .ok n) (more : List Node) :
    assemble r (children ++ more) = .ok (n.addChildren more) := by
  unfold assemble at h ⊢
  split at h
  · cases h
  · cases h
    simp only [Node.addChildren, List.foldl_append]

/-- Leaves that need no edit are read as the draft has them. -/
theorem parse_of_leafEdits_eq_nil {r : Row} {attributes : String} {leaves : Leaves}
    (h : leafEdits r attributes = .ok []) (hparse : Leaves.parse attributes = some leaves)
    (hexact : leaves.Exact) : Leaves.parse r.attributes = some leaves := by
  obtain ⟨old, new, hold, hnew, hsame⟩ := leafEdits_eq_nil_iff.mp h
  rw [hparse] at hnew
  cases hnew
  rw [hold, Leaves.eq_of_same hexact hsame]

theorem nodup_map_path_childrenIn {s : Store} (hs : s.Sound) {r : Row} (hr : r ∈ s.rows) :
    ((childrenIn s.rows r).map Row.path).Nodup := by
  have hids : (childrenIn s.rows r).Nodup := hs.nodup.filter _
  exact List.Nodup.map_on (fun q hq x hx => distinct_childrenIn hs hr q hq x hx) hids

/-- Rows that read as drafts of their paths are filed under the same keys. -/
theorem ofList_nodes_eq {rows : List Row} {children : List Draft} {f : Row → Node}
    (hrows : (rows.map Row.path).Nodup) (hdrafts : (children.map Draft.path).Nodup)
    (hread : ∀ q ∈ rows, ∃ c ∈ children, q.path = c.path ∧ f q = c.node)
    (hrow : ∀ c ∈ children, ∃ q ∈ rows, q.path = c.path) :
    Keyed.ofList ((rows.map f).map fun n => (n.path, n))
      = Keyed.ofList (Draft.keyedNodes children) := by
  rw [Draft.keyedNodes_eq]
  refine Keyed.ofList_congr ?_ ?_ fun e => ?_
  · have hpaths : (rows.map fun q => (f q).path) = rows.map Row.path := by
      refine List.map_congr_left fun q hq => ?_
      obtain ⟨c, -, hqpath, hnode⟩ := hread q hq
      rw [hnode, Draft.path_node, hqpath]
    rw [List.map_map, List.map_map]
    show (rows.map fun q => (f q).path).Nodup
    rw [hpaths]
    exact hrows
  · rw [List.map_map]
    exact hdrafts
  · rw [List.map_map, List.mem_map, List.mem_map]
    constructor
    · rintro ⟨q, hq, rfl⟩
      obtain ⟨c, hc, -, hnode⟩ := hread q hq
      refine ⟨c, hc, ?_⟩
      rw [Function.comp, hnode, Draft.path_node]
    · rintro ⟨c, hc, rfl⟩
      obtain ⟨q, hq, hqpath⟩ := hrow c hc
      obtain ⟨c', hc', hqpath', hnode⟩ := hread q hq
      have hsame : c' = c := List.inj_on_of_nodup_map hdrafts hc' hc (hqpath'.symm.trans hqpath)
      refine ⟨q, hq, ?_⟩
      rw [Function.comp, hnode, hsame, Draft.path_node]

/-- A row settled on a draft without doubles reads as that draft. -/
theorem node_of_settled {s : Store} (hs : s.Sound) {d : Draft} (hd : d.Exact) {r : Row}
    (hr : r ∈ s.rows) (hpath : r.path = d.path) (h : Settled s.rows r d) :
    s.node .all r = .ok d.node := by
  induction hd generalizing r with
  | @mk path attributes leaves children hparse hexact hchildren ih =>
      obtain ⟨hleaves, hnodup, hrow, hdraft⟩ := h.parts
      have hread : ∀ q, ∃ n, q ∈ childrenIn s.rows r →
          s.node .all q = .ok n ∧ ∃ c ∈ children, q.path = c.path ∧ n = c.node := by
        intro q
        by_cases hq : q ∈ childrenIn s.rows r
        · obtain ⟨c, hc, hqpath, hsettled⟩ := h.child hs hr hq
          refine ⟨c.node, fun _ => ⟨?_, c, hc, hqpath, rfl⟩⟩
          exact ih c hc (mem_childrenIn.mp hq).1 hqpath hsettled
        · exact ⟨default, fun hmem => absurd hmem hq⟩
      choose f hf using hread
      have hchildNodes : childNodes .all r.id s.rows = .ok ((childrenIn s.rows r).map f) := by
        rw [childNodes_all hs.ordered, mapM_eq_ok fun q hq => (hf q hq).1]
      have hattributes : Leaves.parse r.attributes = some leaves :=
        parse_of_leafEdits_eq_nil hleaves hparse hexact
      have hrow' : ∀ c ∈ children, ∃ q ∈ childrenIn s.rows r, q.path = c.path := by
        intro c hc
        obtain ⟨q, hq, hqpath, -⟩ := hrow c hc
        exact ⟨q, hq, hqpath⟩
      have hkeyed := ofList_nodes_eq (nodup_map_path_childrenIn hs hr) hnodup
        (fun q hq => (hf q hq).2) hrow'
      rw [node_all, hchildNodes]
      show assemble r _ = _
      rw [assemble, hattributes]
      simp only
      rw [addChildren_eq, ← Keyed.ofList, hkeyed, Draft.node, hparse, hpath]
      rfl

theorem mapM_node_of_settled {s : Store} (hs : s.Sound) {rows : List Row} {ds : List Draft}
    (hrows : ∀ q ∈ rows, q ∈ s.rows) (hexact : ∀ d ∈ ds, d.Exact)
    (h : List.Forall₂ (fun q d => q.path = d.path ∧ Settled s.rows q d) rows ds) :
    rows.mapM (s.node .all) = .ok (ds.map Draft.node) := by
  induction h with
  | nil => rfl
  | @cons q d rows ds hq _ ih =>
      have hread := node_of_settled hs (hexact d List.mem_cons_self) (hrows q List.mem_cons_self)
        hq.1 hq.2
      rw [List.mapM_cons, hread, ih (fun x hx => hrows x (List.mem_cons_of_mem _ hx))
        fun c hc => hexact c (List.mem_cons_of_mem _ hc)]
      rfl

end DataTree
