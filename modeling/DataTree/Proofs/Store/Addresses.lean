import DataTree.Proofs.Path.Language
import DataTree.Proofs.Store.Provenance

/-!
# The paths that rows have

A node is stored at the canonical form of its path, and the path is checked by
nothing but the reader of queries.  So rows are stored at all paths that the
language of queries has, also at those that ask for many nodes, for leaves or
for what is above; what is stored at such a path was given with one.

## Main definitions

* `Path.isNodePath` — whether a path names one node by its place.
* `Operation.Gives` — the nodes that an operation is given.

## Main results

* `exists_given_of_mem_rows` — each row was given as a node.
* `rows_addressed` — the paths that rows can have, and when all of them name
  nodes by their places.
-/

namespace DataTree

open DataTree.Path

/-! ## Paths of nodes -/

/-- Whether a query asks for the node at one place: it starts at the roots,
has keys only, and no axis. -/
def Path.Query.addressesNode (q : Query) : Bool :=
  q.isAbsolute && q.ancestor.isNone && q.leafText.isNone && q.contains.isNone
    && q.conditions.all fun g => g.toKeys?.isSome

/-- Whether a path names one node by its place. -/
def Path.isNodePath (path : String) : Bool :=
  match Query.parse path with
  | .ok q => q.addressesNode
  | .error _ => false

theorem isNodePath_of_parse {path : String} {q : Query} (h : Query.parse path = .ok q) :
    isNodePath path = q.addressesNode := by
  rw [isNodePath, h]

/-- A path that is not the root marker is in canonical form what it was as
written. -/
theorem isNodePath_normalized {path : String} {q : Query} (h : Query.parse path = .ok q) :
    isNodePath q.normalized = isNodePath path := by
  rw [isNodePath_of_parse h, isNodePath_of_parse (parse_normalized h)]

theorem parse_of_normalize {path target : String} (h : normalize path = .ok target)
    (hroot : isRoot target = false) : ∃ q, Query.parse path = .ok q ∧ q.normalized = target := by
  rw [Path.normalize] at h
  split at h
  · cases h
    cases hroot
  · exact map_eq_ok_iff.mp h

/-! ## Nodes that are given -/

/-- Whether an operation is given a node, at any depth of a tree. -/
def Operation.Gives (operation : Operation) (n : Node) : Prop :=
  ∃ w, operation.write? = some w ∧ ∃ top ∈ w.trees, n.Within top

/-- Each row was given as a node, whose path has that of the row as its
canonical form. -/
theorem exists_given_of_mem_rows {history : List Operation} {r : Row}
    (hr : r ∈ (Store.empty.after history).rows) :
    ∃ operation ∈ history, ∃ n, operation.Gives n ∧ normalize n.path = .ok r.path := by
  have hfilled : (Store.empty.after history).Filled
      (fun path => ∃ operation ∈ history, ∃ n, operation.Gives n ∧ normalize n.path = .ok path)
      fun _ => True := by
    refine filled_after fun operation hmem w hw => ⟨fun top htop n hn _ path hpath => ?_, ?_⟩
    · exact ⟨⟨operation, hmem, n, ⟨w, hw, top, htop, hn⟩, hpath⟩, trivial⟩
    · exact fun _ _ _ _ _ _ => trivial
  exact (hfilled r hr).1

/-- A store with one owner, who is given a node without leaves. -/
def storing (path : String) : List Operation :=
  [.request .readWrite (.createDataspace "d"), .request .readWrite (.createOwner ⟨1, "d"⟩ "o"),
    .request .readWrite (.write ⟨1, 1, "d", "o"⟩ (.store [.leafless path]))]

/-- The drafts of a node without children, at any path that can be read as a query. -/
theorem drafts_of_parse {path : String} {q : Query} {leaves : Leaves}
    (h : Query.parse path = .ok q) (hleaves : Node.badLeaf? leaves = none) :
    (Node.mk path leaves []).drafts = .ok [.mk q.normalized leaves.text []] := by
  have hne : path ≠ "" := by
    rintro rfl
    have hroot := isRoot_of_parse h
    cases hroot
  have hvalid : (Node.mk path leaves []).validate = .ok () := by
    rw [Node.validate, if_neg hne, hleaves]
    rfl
  have hdraft : Draft.ofNode (.mk path leaves []) = .ok (.mk q.normalized leaves.text []) :=
    Draft.ofNode_eq_ok_iff.mpr ⟨_, [], normalize_of_parse h, rfl, rfl⟩
  rw [Node.drafts, hvalid, hdraft, show (Node.mk path leaves []).path = path from rfl,
    isRoot_of_parse h]
  rfl

/-- A store with one owner, who is given a node without children. -/
def storingLeaves (path : String) (leaves : Leaves) : List Operation :=
  [.request .readWrite (.createDataspace "d"), .request .readWrite (.createOwner ⟨1, "d"⟩ "o"),
    .request .readWrite (.write ⟨1, 1, "d", "o"⟩ (.store [.mk path leaves []]))]

/-- A node is stored at any path that can be read as a query. -/
theorem rows_storingLeaves {path : String} {q : Query} {leaves : Leaves}
    (h : Query.parse path = .ok q) (hleaves : Node.badLeaf? leaves = none) :
    (Store.empty.after (storingLeaves path leaves)).rows
      = [⟨1, 1, q.normalized, none, leaves.text⟩] := by
  have hplan : planStore [Node.mk path leaves []]
      = .ok (.edits [.insert none (.mk q.normalized leaves.text [])]) := by
    rw [planStore, Node.draftsOfAll, drafts_of_parse h hleaves]
    rfl
  let s : Store :=
    { dataspaces := [⟨1, "d"⟩], owners := [⟨1, 1, "o"⟩], lastDataspace := 1, lastOwner := 1 }
  have hwrite : s.write .readWrite ⟨1, 1, "d", "o"⟩ (.store [.mk path leaves []])
      = Change.commit s ⟨1, 1, "d", "o"⟩
        (.edits [.insert none (.mk q.normalized leaves.text [])]) := by
    rw [Store.write, Write.plan, hplan]
    rfl
  show (s.write .readWrite ⟨1, 1, "d", "o"⟩ (.store [.mk path leaves []])).1.rows = _
  rw [hwrite]
  rfl

theorem rows_storing {path : String} {q : Query} (h : Query.parse path = .ok q) :
    (Store.empty.after (storing path)).rows = [⟨1, 1, q.normalized, none, Leaves.text []⟩] :=
  rows_storingLeaves h rfl

/-! ## The paths of rows -/

/-- Whatever operations have been run, each row is stored at the canonical
form of the path of a node that one of them was given, and either both name a
node by its place or neither does.  So rows are at such paths as long as all
nodes that are given are; but a row can come to be at the canonical form of
any path that can be read as a query. -/
theorem rows_addressed (history : List Operation) :
    (∀ r ∈ (Store.empty.after history).rows,
        ∃ operation ∈ history, ∃ n, operation.Gives n ∧ ∃ q, Query.parse n.path = .ok q
          ∧ Query.parse r.path = .ok q ∧ q.normalized = r.path
          ∧ isNodePath r.path = isNodePath n.path)
      ∧ ((∀ operation ∈ history, ∀ n, operation.Gives n → isNodePath n.path = true) →
          ∀ r ∈ (Store.empty.after history).rows, isNodePath r.path = true)
      ∧ ∀ path q, Query.parse path = .ok q → ∃ history,
          ∃ r ∈ (Store.empty.after history).rows, r.path = q.normalized
            ∧ isNodePath r.path = isNodePath path := by
  have hgiven : ∀ r ∈ (Store.empty.after history).rows,
      ∃ operation ∈ history, ∃ n, operation.Gives n ∧ ∃ q, Query.parse n.path = .ok q
        ∧ Query.parse r.path = .ok q ∧ q.normalized = r.path
        ∧ isNodePath r.path = isNodePath n.path := by
    intro r hr
    have hs := sound_after history
    obtain ⟨operation, hmem, n, hgives, hnormalize⟩ := exists_given_of_mem_rows hr
    obtain ⟨q, hq, hpath⟩ := parse_of_normalize hnormalize (hs.canonical r hr).2
    refine ⟨operation, hmem, n, hgives, q, hq, ?_, hpath, ?_⟩
    · rw [← hpath]
      exact parse_normalized hq
    · rw [← hpath]
      exact isNodePath_normalized hq
  refine ⟨hgiven, fun hall r hr => ?_, fun path q hq => ?_⟩
  · obtain ⟨operation, hmem, n, hgives, q, -, -, -, hsame⟩ := hgiven r hr
    rw [hsame]
    exact hall operation hmem n hgives
  · refine ⟨storing path, ⟨1, 1, q.normalized, none, Leaves.text []⟩, ?_, rfl,
      isNodePath_normalized hq⟩
    rw [rows_storing hq]
    exact List.mem_singleton.mpr rfl

/-- A tree given under other spellings of its paths. -/
theorem rows_addressed_of_list_element :
    let child : Node := .leafless "/a/b[ @k = \"1\" ]"
    let tree : Node := .mk "/a" [] [(child.path, child)]
    let history : List Operation := [.request .readWrite (.createDataspace "d"),
      .request .readWrite (.createOwner ⟨1, "d"⟩ "o"),
      .request .readWrite (.write ⟨1, 1, "d", "o"⟩ (.store [tree]))]
    (∀ operation ∈ history, ∀ n, operation.Gives n → isNodePath n.path = true)
      ∧ (Store.empty.after history).rows.map Row.path = ["/a", "/a/b[@k='1']"]
      ∧ ∀ r ∈ (Store.empty.after history).rows, isNodePath r.path = true := by
  intro child tree history
  have hgiven : ∀ operation ∈ history, ∀ n, operation.Gives n → isNodePath n.path = true := by
    rintro operation hmem n ⟨w, hw, top, htop, hn⟩
    have hw : w = .store [tree] := by
      simp only [history, List.mem_cons, List.not_mem_nil, or_false] at hmem
      rcases hmem with rfl | rfl | rfl <;> cases hw
      rfl
    subst hw
    have htop : top = tree := List.mem_singleton.mp htop
    subst htop
    cases hn with
    | self => decide +kernel
    | child hc hn =>
        obtain rfl := List.mem_singleton.mp hc
        cases hn with
        | self => decide +kernel
        | child hc hn => cases hc
  exact ⟨hgiven, by decide +kernel, (rows_addressed history).2.1 hgiven⟩

/-- Rows at paths that match at any depth, compare leaves, ask for parts of
texts or for what is above. -/
theorem rows_at_queries :
    ∃ s, Reachable s
      ∧ s.rows.map Row.path = ["//a", "/a[@x>3]", "/a[@x='1' or @y='2']",
        "/a[contains(@x,'v')]", "/a/x[text()='v']", "/a/b/ancestor::a"]
      ∧ ∀ r ∈ s.rows, isNodePath r.path = false := by
  let owner : Owner := ⟨1, 1, "d", "o"⟩
  let top : Node := .mk "/" [] (["//a", "/a[@x>3]", "/a[@x='1' or @y='2']", "/a[contains(@x,'v')]",
    "/a/x[text()='v']", "/a/b/ancestor::a"].map fun path => (path, .leafless path))
  have hreach := Reachable.empty
    |>.step .readWrite (.createDataspace "d")
    |>.step .readWrite (.createOwner ⟨1, "d"⟩ "o")
    |>.step .readWrite (.write owner (.store [top]))
  exact ⟨_, hreach, by decide +kernel⟩

end DataTree
