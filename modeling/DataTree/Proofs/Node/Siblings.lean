import DataTree.Proofs.Node.Written

/-!
# Siblings

Children are kept under keys, one under each, so that no two children of a node have
the same path.  A child that is added goes under its own path, which is all that trees
made by adding children need.  A text may hold children under any keys, though, and a
check of a tree looks at the children without their keys: in a tree that was read and
found valid siblings may have the same path, and a child may be found by a path that is
not its own.

## Main definitions

* `Node.MadeFrom` — the trees that can be made from given ones.
* `Node.FoundByPath` — whether siblings have different paths and are found by them.
* `Node.KeyedByPath` — whether children are kept under their own paths.
* `Node.keyless` — a tree without its keys.

## Main results

* `foundByPath_iff` — siblings are found by their paths if they are kept under them.
* `MadeFrom.forall_within` — what adding a child keeps of the children of a node.
* `validate_keyless` — a check of a tree does not look at its keys.
* `siblings_found` — when siblings are found by their paths.
-/

namespace DataTree.Node

/-- The trees that can be made from given ones: nodes without leaves and children, trees with
other leaves, trees with one more child. -/
inductive MadeFrom (given : Node → Prop) : Node → Prop where
  | given {n : Node} : given n → MadeFrom given n
  | leafless (path : String) : MadeFrom given (leafless path)
  | setLeaf {n : Node} (name : String) (value : Json) :
      MadeFrom given n → MadeFrom given (n.setLeaf name value)
  | setLeaves {n : Node} (leaves : Leaves) : MadeFrom given n → MadeFrom given (n.setLeaves leaves)
  | addChild {n child : Node} :
      MadeFrom given n → MadeFrom given child → MadeFrom given (n.addChild child)

/-- Whether everywhere in a tree siblings have different paths, and asking for a path gives
the child of that path, if there is one, and no other. -/
def FoundByPath (n : Node) : Prop :=
  ∀ m : Node, m.Within n → (m.children.map Node.path).Nodup
    ∧ ∀ path child, m.child? path = some child ↔ child ∈ m.children ∧ child.path = path

/-- Whether everywhere in a tree children are kept under their own paths. -/
def KeyedByPath (n : Node) : Prop :=
  ∀ m : Node, m.Within n → ∀ e ∈ m.keyedChildren, e.1 = e.2.path

mutual
/-- A tree with its children in their order, but without keys. -/
def keyless : Node → Node
  | mk path leaves children => mk path leaves (keylessAll children)

def keylessAll : List (String × Node) → List (String × Node)
  | [] => []
  | (_, child) :: rest => ("", keyless child) :: keylessAll rest
end

/-! ## Keys and paths -/

/-- In an ordered tree siblings are found by their paths exactly if they are kept under them. -/
theorem foundByPath_iff {n : Node} (h : n.Ordered) : n.FoundByPath ↔ n.KeyedByPath := by
  refine forall₂_congr fun m hm => ?_
  have hsorted := h m hm
  have hmem : ∀ {e}, e ∈ m.keyedChildren → e.2 ∈ m.children := fun he => List.mem_map_of_mem he
  constructor
  · rintro ⟨-, hfound⟩ e he
    have hchild : m.child? e.1 = some e.2 := hsorted.find?_eq_some_iff.mpr he
    exact ((hfound e.1 e.2).mp hchild).2.symm
  · intro hkeyed
    have hpaths : m.children.map Node.path = m.keyedChildren.map (·.1) := by
      rw [children, Keyed.values, List.map_map]
      exact List.map_congr_left fun e he => (hkeyed e he).symm
    refine ⟨hpaths ▸ hsorted.nodup_keys, fun path child => ?_⟩
    rw [child?, hsorted.find?_eq_some_iff]
    constructor
    · intro he
      exact ⟨hmem he, (hkeyed _ he).symm⟩
    · rintro ⟨hchild, rfl⟩
      obtain ⟨e, he, rfl⟩ := List.mem_map.mp hchild
      rw [← hkeyed e he]
      exact he

/-- What holds of no children, and still holds when a child is added under its path, holds
everywhere in a tree if it does in the trees it is made from. -/
theorem MadeFrom.forall_within {given : Node → Prop} {P : Keyed Node → Prop} (hnone : P [])
    (hadd : ∀ {children : Keyed Node} (child : Node), P children →
      P (Keyed.insert child.path child children))
    (hgiven : ∀ g, given g → ∀ m : Node, m.Within g → P m.keyedChildren) {n : Node}
    (h : n.MadeFrom given) : ∀ m : Node, m.Within n → P m.keyedChildren := by
  induction h with
  | given h => exact hgiven _ h
  | leafless path => exact forall_within_mk.mpr ⟨hnone, by simp⟩
  | @setLeaf n name value _ ih =>
      obtain ⟨path, leaves, children⟩ := n
      exact forall_within_mk.mpr (forall_within_mk.mp ih)
  | @setLeaves n leaves _ ih =>
      obtain ⟨path, former, children⟩ := n
      exact forall_within_mk.mpr (forall_within_mk.mp ih)
  | @addChild n child _ _ ih ihchild =>
      obtain ⟨path, leaves, children⟩ := n
      obtain ⟨hself, hbelow⟩ := forall_within_mk.mp ih
      refine forall_within_mk.mpr ⟨hadd child hself, fun e he => ?_⟩
      rcases Keyed.mem_insert he with rfl | he
      · exact ihchild
      · exact hbelow e he

section

variable {given : Node → Prop} {n : Node} (h : n.MadeFrom given)

include h

theorem MadeFrom.ordered (hgiven : ∀ g, given g → g.Ordered) : n.Ordered :=
  h.forall_within (P := Keyed.Sorted) .nil
    (fun child hsorted => Keyed.sorted_insert hsorted child.path child) hgiven

theorem MadeFrom.keyedByPath (hgiven : ∀ g, given g → g.KeyedByPath) : n.KeyedByPath := by
  refine h.forall_within (P := fun children => ∀ e ∈ children, e.1 = e.2.path) (by simp) ?_ hgiven
  intro children child hkeyed e he
  rcases Keyed.mem_insert he with rfl | he
  · rfl
  · exact hkeyed e he

end

/-! ## Checks -/

theorem path_keyless (n : Node) : n.keyless.path = n.path := by
  obtain ⟨path, leaves, children⟩ := n
  rfl

mutual
/-- A check of a tree does not look at its keys. -/
theorem validate_keyless : (n : Node) → n.keyless.validate = n.validate
  | mk path leaves children => by
    rw [keyless, validate, validate, validateAll_keyless path children]

theorem validateAll_keyless (parent : String) : (children : List (String × Node)) →
    validateAll parent (keylessAll children) = validateAll parent children
  | [] => rfl
  | (key, child) :: rest => by
    rw [keylessAll, validateAll, validateAll, path_keyless, validate_keyless child,
      validateAll_keyless parent rest]
end

/-! ## A child under two keys -/

/-- A node with one of its children under two keys in place of all of them. -/
def twice (n child : Node) (key key' : String) : Node :=
  mk n.path n.leaves [(key, child), (key', child)]

theorem not_foundByPath_twice (n child : Node) (key key' : String) :
    ¬(n.twice child key key').FoundByPath := by
  intro h
  have hnodup := (h _ .self).1
  simp [twice, children, keyedChildren, Keyed.values] at hnodup

section

variable {n child : Node} (hchild : child ∈ n.children) (key key' : String)

include hchild

theorem validate_twice (h : n.validate = .ok ()) :
    (n.twice child key key').validate = .ok () := by
  obtain ⟨path, leaves, children⟩ := n
  obtain ⟨e, he, rfl⟩ := List.mem_map.mp hchild
  obtain ⟨hpath, hleaves, hall⟩ := validate_eq_ok_iff.mp h
  have hself := validateAll_eq_ok_iff.mp hall e he
  refine validate_eq_ok_iff.mpr ⟨hpath, hleaves, validateAll_eq_ok_iff.mpr ?_⟩
  intro c hc
  rcases List.mem_cons.mp hc with rfl | hc
  · exact hself
  · rw [List.mem_singleton.mp hc]
    exact hself

theorem parse_twice (hexact : n.Exact) (hordered : n.Ordered)
    (hdepth : n.toJson.depth ≤ Json.maxNesting) (hkeys : key < key') :
    Node.parse (n.twice child key key').text = some (n.twice child key key') := by
  have hchildExact := hexact.child hchild
  obtain ⟨path, leaves, children⟩ := n
  obtain ⟨e, he, rfl⟩ := List.mem_map.mp hchild
  have hchildOrdered := (ordered_mk_iff.mp hordered).2 e he
  refine parse_text ⟨hexact.1, hchildExact, hchildExact, trivial⟩ (ordered_mk_iff.mpr ⟨?_, ?_⟩) ?_
  · simpa [Keyed.Sorted] using hkeys
  · simp [hchildOrdered]
  · have hbelow : e.2.toJson.depth ≤ Json.membersDepth (childrenJson children) :=
      depth_le_membersDepth he
    rw [depth_toJson] at hdepth
    rw [twice, depth_toJson]
    simp only [childrenJson, Json.membersDepth, Node.leaves]
    omega

end

/-! ## When siblings are found by their paths -/

/-- In a tree made in any way from nodes that were read, siblings have different paths and
are found by them exactly if children are kept under their own paths everywhere.  They are
if they are in all nodes that were read, so always if none was.  Whether the tree is valid
does not matter, for a check does not look at keys.  Any two keys can hold one child: there
is a text for it, and the tree that is read is valid if the one with the child once is. -/
theorem siblings_found {given : Node → Prop}
    (hgiven : ∀ g, given g → ∃ text, Node.parse text = some g) {n : Node} (h : n.MadeFrom given) :
    (n.FoundByPath ↔ n.KeyedByPath)
      ∧ ((∀ g, given g → g.KeyedByPath) → n.FoundByPath)
      ∧ (∀ m : Node, m.keyless = n.keyless → m.validate = n.validate)
      ∧ (n.Exact → n.toJson.depth ≤ Json.maxNesting →
          ∀ child ∈ n.children, ∀ key key', key < key' →
            Node.parse (n.twice child key key').text = some (n.twice child key key')
              ∧ (n.validate = .ok () → (n.twice child key key').validate = .ok ())
              ∧ ¬(n.twice child key key').FoundByPath) := by
  have hordered : n.Ordered := by
    refine h.ordered fun g hg => ?_
    obtain ⟨text, hread⟩ := hgiven g hg
    exact ordered_of_parse hread
  refine ⟨foundByPath_iff hordered, fun hkeyed => ?_, fun m hm => ?_, ?_⟩
  · exact (foundByPath_iff hordered).mpr (h.keyedByPath hkeyed)
  · rw [← validate_keyless m, hm, validate_keyless n]
  · intro hexact hdepth child hchild key key' hkeys
    exact ⟨parse_twice hchild key key' hexact hordered hdepth hkeys,
      validate_twice hchild key key', not_foundByPath_twice n child key key'⟩

/-- A child is added to a node that was read with its child under its path. -/
theorem siblings_found_of_added_child :
    let read : Node := .mk "/a" [("x", .bool true)] [("/a/b", leafless "/a/b")]
    let n := read.addChild ((leafless "/a/c").setLeaf "y" .null)
    let twin := n.twice (leafless "/a/b") "" "z"
    (∃ text, Node.parse text = some read) ∧ n.MadeFrom (· = read) ∧ read.KeyedByPath
      ∧ n.FoundByPath ∧ n.children.map Node.path = ["/a/b", "/a/c"]
      ∧ Node.parse twin.text = some twin ∧ twin.validate = .ok () ∧ ¬twin.FoundByPath := by
  intro read n twin
  have hleafless : ∀ path, (leafless path).Exact := fun _ => ⟨⟨.nil, trivial⟩, trivial⟩
  have hread : Node.parse read.text = some read := by
    refine parse_text ⟨⟨List.pairwise_singleton _ _, trivial, trivial⟩, hleafless _, trivial⟩
      (ordered_mk_iff.mpr ⟨List.pairwise_singleton _ _, ?_⟩) (by decide +kernel)
    rintro e he
    rw [List.mem_singleton.mp he]
    exact ordered_mk_iff.mpr ⟨.nil, by simp⟩
  have hmade : n.MadeFrom (· = read) := .addChild (.given rfl) (.setLeaf _ _ (.leafless _))
  have hkeyed : read.KeyedByPath := by
    refine forall_within_mk.mpr ⟨by simp [keyedChildren, leafless, path], fun e he => ?_⟩
    rw [List.mem_singleton.mp he]
    exact forall_within_mk.mpr ⟨by simp [keyedChildren], by simp⟩
  have hexact : n.Exact :=
    ⟨⟨List.pairwise_singleton _ _, trivial, trivial⟩, hleafless _,
      ⟨⟨List.pairwise_singleton _ _, trivial, trivial⟩, trivial⟩, trivial⟩
  obtain ⟨-, hfound, -, htwice⟩ := siblings_found
    (fun g (hg : g = read) => ⟨read.text, hg ▸ hread⟩) hmade
  obtain ⟨hparse, hvalid, hnot⟩ := htwice hexact (by decide +kernel) (leafless "/a/b")
    (by exact List.mem_cons_self) "" "z" (by decide +kernel)
  exact ⟨⟨_, hread⟩, hmade, hkeyed, hfound (fun g hg => hg ▸ hkeyed), by decide +kernel, hparse,
    hvalid (by decide +kernel), hnot⟩

/-- A valid tree is read in which two children of a node have one path; each is found by a
key, and neither by the path. -/
theorem siblings_of_one_path :
    let text := "\x7b\"path\":\"/a\",\"children\":\x7b\"x\":\x7b\"path\":\"/a/b\"\x7d,"
      ++ "\"y\":\x7b\"path\":\"/a/b\"\x7d\x7d\x7d"
    ∃ n, Node.parse text = some n ∧ n.validate = .ok ()
      ∧ n.children.map Node.path = ["/a/b", "/a/b"] ∧ (n.child? "x").map Node.path = some "/a/b"
      ∧ (n.child? "/a/b").map Node.path = none ∧ ¬n.FoundByPath := by
  intro text
  have hread : (Node.parse text).map (fun n => (n.validate, n.children.map Node.path,
      (n.child? "x").map Node.path, (n.child? "/a/b").map Node.path))
        = some (.ok (), ["/a/b", "/a/b"], some "/a/b", none) := by decide +kernel
  obtain ⟨n, hn, hseen⟩ := Option.map_eq_some_iff.mp hread
  simp only [Prod.mk.injEq] at hseen
  obtain ⟨hvalid, hpaths, hfound, hmissing⟩ := hseen
  refine ⟨n, hn, hvalid, hpaths, hfound, hmissing, fun h => ?_⟩
  have hnodup := (h n .self).1
  rw [hpaths] at hnodup
  exact absurd hnodup (by decide)

end DataTree.Node
