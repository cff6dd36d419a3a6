import DataTree.Node.Text
import DataTree.Proofs.Store.Parts

/-!
# Nodes read back

A node is written as an object that holds its children under their keys.  The keys
of what is read increase at every depth, since each object of children becomes a
map.  Nothing else is asked of keys, in particular not that they are the paths of
the children: a tree with any increasing keys is read from its own text.

## Main definitions

* `Node.Ordered` — the keys of children increase, at any depth.

## Main results

* `ordered_of_parse` — trees that are read are ordered.
* `parse_text` — an ordered tree without doubles is read from its text.
-/

namespace DataTree.Node

/-- Whether the keys of children increase, at any depth. -/
def Ordered (n : Node) : Prop := ∀ m : Node, m.Within n → Keyed.Sorted m.keyedChildren

theorem ordered_mk_iff {path : String} {leaves : Leaves} {children : List (String × Node)} :
    (mk path leaves children).Ordered
      ↔ Keyed.Sorted children ∧ ∀ e ∈ children, e.2.Ordered :=
  forall_within_mk (P := fun m => Keyed.Sorted m.keyedChildren)

/-! ## Reading -/

/-- Whether the children among the fields of a node can be those of an ordered one. -/
def Fields.Ordered (f : Fields) : Prop :=
  ∀ children, f.children = some children →
    Keyed.Sorted children ∧ ∀ e ∈ children, e.2.Ordered

theorem Fields.Ordered.toNode {f : Fields} (h : f.Ordered) {n : Node} (hn : f.toNode = some n) :
    n.Ordered := by
  obtain ⟨path, -, rfl⟩ := Option.map_eq_some_iff.mp hn
  refine ordered_mk_iff.mpr ?_
  cases hchildren : f.children with
  | none => exact ⟨.nil, by simp⟩
  | some children => exact h children hchildren

theorem Fields.ordered_of_childless {f : Fields} (h : f.children = none) : f.Ordered := by
  intro children hchildren
  rw [h] at hchildren
  cases hchildren

/-- A member of a node gives its children or leaves them as the others give them. -/
theorem children_of_ofMembers_cons {depth : Nat} {spelling : String} {d : Document}
    {rest : List (String × Document)} {f : Fields}
    (h : ofMembers depth ((spelling, d) :: rest) = some f) :
    ∃ fields, ofMembers depth rest = some fields
      ∧ (f.children = fields.children ∨ f.children = childrenOf depth d) := by
  rw [ofMembers] at h
  split at h
  · rename_i key fields hkey hfields
    refine ⟨fields, hfields, ?_⟩
    split at h
    · split at h
      · cases h
        exact .inl rfl
      · cases h
    · split at h
      · split at h
        · cases h
          exact .inl rfl
        · cases h
      · split at h
        · split at h
          · rename_i children hnone hread
            cases h
            exact .inr hread.symm
          · cases h
        · cases h
          exact .inl rfl
  · cases h

mutual
/-- The node of a document is ordered. -/
theorem ordered_of_ofDocument : (d : Document) → {depth : Nat} → {n : Node} →
    ofDocument depth d = some n → n.Ordered
  | .object members, 0, _, h => by cases h
  | .object members, depth + 1, n, h => by
    obtain ⟨f, hf, hn⟩ := Option.bind_eq_some_iff.mp h
    exact (ordered_of_ofMembers members hf).toNode hn
  | .array items, 0, _, h => by cases h
  | .array items, depth + 1, n, h => by
    obtain ⟨f, hf, hn⟩ := Option.bind_eq_some_iff.mp h
    exact (ordered_of_ofItems items hf).toNode hn
  | .null, _, _, h | .bool _, _, _, h | .number _, _, _, h | .string _, _, _, h => by cases h

theorem ordered_of_ofMembers : (members : List (String × Document)) → {depth : Nat} →
    {f : Fields} → ofMembers depth members = some f → f.Ordered
  | [], _, f, h => by
    cases h
    exact Fields.ordered_of_childless rfl
  | (spelling, d) :: rest, depth, f, h => by
    obtain ⟨fields, hfields, heq | heq⟩ := children_of_ofMembers_cons h
    · intro children hchildren
      exact ordered_of_ofMembers rest hfields children (heq.symm.trans hchildren)
    · intro children hchildren
      exact ordered_of_childrenOf d (heq.symm.trans hchildren)

theorem ordered_of_ofItems : (items : List Document) → {depth : Nat} → {f : Fields} →
    ofItems depth items = some f → f.Ordered
  | [path], _, f, h => by
    obtain ⟨p, -, rfl⟩ := Option.map_eq_some_iff.mp h
    exact Fields.ordered_of_childless rfl
  | [path, leaves], _, f, h => by
    rw [ofItems] at h
    split at h
    · cases h
      exact Fields.ordered_of_childless rfl
    · cases h
  | [path, leaves, children], _, f, h => by
    rw [ofItems] at h
    split at h
    · rename_i hread
      cases h
      intro found hfound
      cases hfound
      exact ordered_of_childrenOf children hread
    · cases h
  | [], _, _, h | _ :: _ :: _ :: _ :: _, _, _, h => by cases h

theorem ordered_of_childrenOf : (d : Document) → {depth : Nat} → {children : Keyed Node} →
    childrenOf depth d = some children →
    Keyed.Sorted children ∧ ∀ e ∈ children, e.2.Ordered
  | .object members, 0, _, h => by cases h
  | .object members, depth + 1, children, h => by
    obtain ⟨named, hnamed, rfl⟩ := Option.map_eq_some_iff.mp h
    refine ⟨Keyed.sorted_ofList named, fun e he => ?_⟩
    rcases Keyed.mem_insertAll he with he | he
    · cases he
    · exact ordered_of_namedNodes members hnamed e he
  | .null, _, _, h | .bool _, _, _, h | .number _, _, _, h | .string _, _, _, h
  | .array _, _, _, h => by cases h

theorem ordered_of_namedNodes : (members : List (String × Document)) → {depth : Nat} →
    {named : List (String × Node)} → namedNodes depth members = some named →
    ∀ e ∈ named, e.2.Ordered
  | [], _, named, h => by
    cases h
    simp
  | (spelling, d) :: rest, depth, named, h => by
    rw [namedNodes] at h
    split at h
    · rename_i key n more hkey hn hmore
      cases h
      exact List.forall_mem_cons.mpr
        ⟨ordered_of_ofDocument d hn, ordered_of_namedNodes rest hmore⟩
    · cases h
end

theorem ordered_of_parse {text : String} {n : Node} (h : Node.parse text = some n) :
    n.Ordered := by
  obtain ⟨d, -, hn⟩ := Option.bind_eq_some_iff.mp h
  exact ordered_of_ofDocument d hn

/-! ## Writing -/

/-- A node as it is written, around the documents of its leaves and children. -/
def written (path : String) (leaves children : Document) : Document :=
  .object [("path", .string (String.ofList (Json.escape path.toList))), ("leaves", leaves),
    ("children", children)]

section

variable {path : String} {ls cs : Document}

theorem readsBack_written (hls : ls.ReadsBack) (hcs : cs.ReadsBack) :
    (written path ls cs).ReadsBack := by
  have hname : ∀ name : String, String.ofList (Json.escape name.toList) = name →
      ∀ more, Document.readSpelling (name.toList ++ '"' :: more) = some (name.toList, more) := by
    intro name hname more
    have hread := Json.readSpelling_spelling name more
    rwa [hname] at hread
  exact ⟨hname "path" (by decide +kernel), Json.readSpelling_spelling path,
    hname "leaves" (by decide +kernel), hls, hname "children" (by decide +kernel), hcs, trivial⟩

theorem chars_written {leaves : Leaves} {children : List (String × Node)}
    (hls : ls.chars = Json.chars (.object leaves))
    (hcs : cs.chars = '{' :: Document.commas (childrenChars children) ++ ['}']) :
    (written path ls cs).chars = (mk path leaves children).chars := by
  have hpath : "\x7b\"path\":".toList = '{' :: (Document.spelled "path" ++ [':']) := by
    simp [Document.spelled]
  have hleaves : ",\"leaves\":".toList = ',' :: (Document.spelled "leaves" ++ [':']) := by
    simp [Document.spelled]
  have hchildren : ",\"children\":\x7b".toList
      = ',' :: (Document.spelled "children" ++ [':', '{']) := by
    simp [Document.spelled]
  have hend : "\x7d\x7d".toList = ['}', '}'] := by simp
  -- Rewriting with the equation of `chars` would compare its literals with each other.
  show _ = "\x7b\"path\":".toList ++ Json.stringChars path
    ++ ",\"leaves\":".toList ++ Json.chars (.object leaves)
    ++ ",\"children\":\x7b".toList ++ Document.commas (childrenChars children) ++ "\x7d\x7d".toList
  simp only [written, Document.chars, Document.membersChars, Json.spelled_escape, hls, hcs, hpath,
    hleaves, hchildren, hend, Document.commas_cons_cons, Document.commas_singleton,
    List.cons_append, List.append_assoc, List.nil_append]

theorem ofDocument_written {depth : Nat} {leaves : Leaves} {children : Keyed Node}
    (hls : leavesOf depth ls = some leaves) (hcs : childrenOf depth cs = some children) :
    ofDocument (depth + 1) (written path ls cs) = some (mk path leaves children) := by
  have hnames : Json.decode? "path" = some "path" ∧ Json.decode? "leaves" = some "leaves"
      ∧ Json.decode? "children" = some "children" := by decide +kernel
  have hfields : ofMembers depth [("path", .string (String.ofList (Json.escape path.toList))),
      ("leaves", ls), ("children", cs)] = some ⟨some path, some leaves, some children⟩ := by
    simp [ofMembers, hnames, pathOf, Json.decode?_escape, hls, hcs]
  rw [written, ofDocument, hfields]
  rfl

end

theorem depth_le_membersDepth {e : String × Node} {children : List (String × Node)}
    (h : e ∈ children) : e.2.toJson.depth ≤ Json.membersDepth (childrenJson children) := by
  induction children with
  | nil => cases h
  | cons first rest ih =>
      rw [childrenJson, Json.membersDepth]
      rcases List.mem_cons.mp h with rfl | h
      · exact Nat.le_max_left _ _
      · exact (ih h).trans (Nat.le_max_right _ _)

theorem depth_toJson (path : String) (leaves : Leaves) (children : List (String × Node)) :
    (mk path leaves children).toJson.depth
      = max (Json.membersDepth (childrenJson children)) (Json.membersDepth leaves) + 2 := by
  simp only [toJson, Json.depth, Json.membersDepth]
  omega

mutual
/-- An ordered tree without doubles is written as a document that reads back and denotes it. -/
theorem exists_document : (n : Node) → n.Exact → n.Ordered → ∃ d : Document, d.ReadsBack
    ∧ d.chars = n.chars ∧ ∀ limit, n.toJson.depth ≤ limit → ofDocument limit d = some n
  | mk path leaves children, hexact, hordered => by
    obtain ⟨⟨hsorted, hleaves⟩, hchildren⟩ := hexact
    obtain ⟨hkeys, hbelow⟩ := ordered_mk_iff.mp hordered
    obtain ⟨ls, hreads, hchars, hvalue⟩ := Json.exists_members leaves hleaves
    obtain ⟨cs, hreads', hchars', hvalue'⟩ := exists_members children hchildren hbelow
    refine ⟨written path (.object ls) (.object cs), readsBack_written hreads hreads',
      chars_written ?_ ?_, fun limit hlimit => ?_⟩
    · rw [Document.chars, hchars, Json.chars]
    · rw [Document.chars, hchars']
    · rw [depth_toJson] at hlimit
      obtain ⟨more, rfl⟩ := Nat.exists_eq_add_of_le hlimit
      let depth := max (Json.membersDepth (childrenJson children)) (Json.membersDepth leaves) + more
      have hls : leavesOf (depth + 1) (.object ls) = some leaves := by
        rw [leavesOf, Json.ofDocument, hvalue depth (by omega), Option.map_some,
          Keyed.ofList_of_sorted hsorted]
      have hcs : childrenOf (depth + 1) (.object cs) = some children := by
        rw [childrenOf, hvalue' depth (by omega), Option.map_some, Keyed.ofList_of_sorted hkeys]
      rw [Nat.add_right_comm]
      exact ofDocument_written hls hcs

theorem exists_members : (children : List (String × Node)) → AllExact children →
    (∀ e ∈ children, e.2.Ordered) → ∃ ds : List (String × Document),
      Document.MembersReadBack ds ∧ Document.membersChars ds = childrenChars children
        ∧ ∀ limit, Json.membersDepth (childrenJson children) ≤ limit →
          namedNodes limit ds = some children
  | [], _, _ => ⟨[], trivial, rfl, fun _ _ => rfl⟩
  | (key, n) :: rest, hexact, hordered => by
    obtain ⟨hn, hrest⟩ := List.forall_mem_cons.mp hordered
    obtain ⟨d, hreads, hchars, hvalue⟩ := exists_document n hexact.1 hn
    obtain ⟨ds, hreads', hchars', hvalue'⟩ := exists_members rest hexact.2 hrest
    refine ⟨(String.ofList (Json.escape key.toList), d) :: ds,
      ⟨Json.readSpelling_spelling key, hreads, hreads'⟩, ?_, fun limit hlimit => ?_⟩
    · rw [Document.membersChars, hchars, hchars', childrenChars, Json.spelled_escape]
    · rw [childrenJson, Json.membersDepth, Nat.max_le] at hlimit
      rw [namedNodes, Json.decode?_escape, hvalue limit hlimit.1, hvalue' limit hlimit.2]
end

/-- An ordered tree without doubles is read from its text, if it does not nest too deep. -/
theorem parse_text {n : Node} (hexact : n.Exact) (hordered : n.Ordered)
    (hdepth : n.toJson.depth ≤ Json.maxNesting) : Node.parse n.text = some n := by
  obtain ⟨d, hreads, hchars, hvalue⟩ := exists_document n hexact hordered
  rw [Node.parse, text, ← hchars, Document.parse_chars hreads, Option.bind_some]
  exact hvalue Json.maxNesting hdepth

end DataTree.Node
