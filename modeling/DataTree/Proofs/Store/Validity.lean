import DataTree.Proofs.Json.Held
import DataTree.Proofs.Store.Addresses
import DataTree.Proofs.Store.Appended
import DataTree.Proofs.Store.Owned

/-!
# Valid trees from reads

Every read finds rows first and then reads their nodes.  The paths of what it
gives lie below each other as those of valid trees do, so whether its trees
are valid is a matter of the stored leaves.  Writes check the leaves of the
trees they are given, but leaves that are merged into those of a row are
stored as they are.

## Main definitions

* `Read`, `Store.read` — whatever gives nodes of a store.
* `Store.found` — the rows that a read finds.
* `Store.ReadsValid` — whether reads give valid trees only, and never meet
  leaves that cannot be read.

## Main results

* `read_eq` — a read finds rows and reads their nodes.
* `readsValid_iff` — reads are valid if all stored leaves are scalars and lists
  of scalars.
* `plain_after` — they are if those of updates are.
* `reads_valid` — when the reads of a store are valid.
-/

namespace DataTree

open DataTree.Path

/-! ## Reads -/

/-- Whatever gives nodes of a store. -/
inductive Read where
  | get (owner : Owner) (path : String)
  | getMany (owner : Owner) (paths : List String)
  | query (owner : Owner) (path : String)
  | queryAcross (dataspace : Dataspace) (path : String) (paging : Paging)

namespace Store

/-- The nodes that a read gives. -/
def read (s : Store) (fetch : Fetch) : Read → Outcome (List Node)
  | .get owner path => s.get owner path fetch
  | .getMany owner paths => s.getMany owner paths fetch
  | .query owner path => s.query owner path fetch
  | .queryAcross dataspace path paging =>
    (s.queryAcross dataspace path fetch paging).map (List.map (·.2))

/-- The rows that a read finds, unless it is refused. -/
def found (s : Store) : Read → Outcome (List Row)
  | .get owner path => do
    let _ ← (normalize path).mapError .badPath
    match s.rowsAtAny owner.id [path] with
    | [] => .error (.nodeNotFound owner.name path)
    | rows => return rows
  | .getMany owner paths => .ok (s.rowsAtAny owner.id paths)
  | .query owner path =>
    if isRoot path then .ok (s.rowsAtAny owner.id [rootPath])
    else do
      let q ← readSelector path
      s.select (.owner owner.id) q
  | .queryAcross dataspace path paging =>
    if !paging.isValid then .error (.invalidRequest paging.fault)
    else do
      let q ← readSelector path
      let scope ← s.pageScope dataspace q paging
      s.select scope q

/-- Whether reads give valid trees only, and never meet leaves that cannot be
read. -/
def ReadsValid (s : Store) : Prop :=
  ∀ (asked : Read) (fetch : Fetch), s.read fetch asked ≠ .error .unreadableLeaves
    ∧ ∀ nodes, s.read fetch asked = .ok nodes → ∀ n ∈ nodes, n.validate = .ok ()

end Store

section

variable {s : Store}

theorem get_eq (s : Store) (owner : Owner) (path : String) (fetch : Fetch) :
    s.get owner path fetch = s.found (.get owner path) >>= s.nodes fetch := by
  rw [Store.get, Store.found, Store.getMany]
  cases (normalize path).mapError StoreError.badPath with
  | error e => rfl
  | ok target =>
      cases s.rowsAtAny owner.id [path] with
      | nil => rfl
      | cons r rest =>
          show (s.nodes fetch (r :: rest) >>= _) = s.nodes fetch (r :: rest)
          cases hnodes : s.nodes fetch (r :: rest) with
          | error e => rfl
          | ok nodes =>
              cases nodes with
              | nil =>
                  rw [Store.nodes, List.mapM_cons] at hnodes
                  obtain ⟨n, -, hnodes⟩ := bind_eq_ok_iff.mp hnodes
                  obtain ⟨more, -, hnil⟩ := bind_eq_ok_iff.mp hnodes
                  cases hnil
              | cons n more => rfl

/-- A query across owners finds rows and reads their nodes, each with the name
of its owner. -/
theorem queryAcross_eq_found (s : Store) (dataspace : Dataspace) (path : String) (fetch : Fetch)
    (paging : Paging) : s.queryAcross dataspace path fetch paging
      = s.found (.queryAcross dataspace path paging) >>= fun rows =>
        rows.mapM fun r => (s.node fetch r).map fun n => (s.ownerName r.owner, n) := by
  rw [Store.queryAcross, Store.found]
  split
  · rfl
  · simp only [bind_pure_eq_map, bind_assoc]

/-- The nodes of a query across owners, without the names of these. -/
theorem queryAcross_eq (s : Store) (dataspace : Dataspace) (path : String) (paging : Paging)
    (fetch : Fetch) : (s.queryAcross dataspace path fetch paging).map (List.map (·.2))
      = s.found (.queryAcross dataspace path paging) >>= s.nodes fetch := by
  rw [queryAcross_eq_found]
  cases s.found (.queryAcross dataspace path paging) with
  | error e => rfl
  | ok rows =>
      show Except.map (List.map Prod.snd) (rows.mapM _) = s.nodes fetch rows
      rw [map_mapM, Store.nodes]
      refine mapM_congr fun r _ => ?_
      cases s.node fetch r <;> rfl

/-- A read finds rows and reads their nodes. -/
theorem read_eq (s : Store) (fetch : Fetch) (asked : Read) :
    s.read fetch asked = s.found asked >>= s.nodes fetch := by
  cases asked with
  | get owner path => exact get_eq s owner path fetch
  | getMany owner paths => rfl
  | query owner path =>
      show s.query owner path fetch = _
      rw [Store.query, Store.found]
      split
      · rfl
      · cases readSelector path <;> rfl
  | queryAcross dataspace path paging => exact queryAcross_eq s dataspace path paging fetch

theorem rowsAtAny_subset (owner : Nat) (paths : List String) :
    ∀ r ∈ s.rowsAtAny owner paths, r ∈ s.rows :=
  fun _ hr => (List.mem_filter.mp hr).1

theorem mem_of_found {asked : Read} {rows : List Row} (h : s.found asked = .ok rows) :
    ∀ r ∈ rows, r ∈ s.rows := by
  cases asked with
  | get owner path =>
      obtain ⟨target, -, h⟩ := bind_eq_ok_iff.mp h
      split at h
      · cases h
      · cases h
        exact rowsAtAny_subset owner.id [path]
  | getMany owner paths =>
      cases h
      exact rowsAtAny_subset owner.id paths
  | query owner path =>
      rw [Store.found] at h
      split at h
      · cases h
        exact rowsAtAny_subset owner.id [rootPath]
      · obtain ⟨q, -, h⟩ := bind_eq_ok_iff.mp h
        exact mem_of_select h
  | queryAcross dataspace path paging =>
      rw [Store.found] at h
      split at h
      · cases h
      · obtain ⟨q, -, h⟩ := bind_eq_ok_iff.mp h
        obtain ⟨scope, -, h⟩ := bind_eq_ok_iff.mp h
        exact mem_of_select h

/-- The scope of a read in pages is found by selecting rows. -/
theorem failsWith_pageScope (dataspace : Dataspace) (q : Selector) (paging : Paging) :
    FailsWith (∃ fault, · = .engine fault) (s.pageScope dataspace q paging) := by
  cases paging with
  | none => exact .ok _
  | some page =>
      exact .bind (.bind (failsWith_select s _ q) fun rows => .ok _) fun owners => .ok _

/-- No read meets leaves of nodes while it is finding rows. -/
theorem failsWith_found (asked : Read) :
    FailsWith (· ≠ .unreadableLeaves) (s.found asked) := by
  have hengine : ∀ e : StoreError, (∃ fault, e = .engine fault) → e ≠ .unreadableLeaves := by
    rintro e ⟨fault, rfl⟩
    simp
  have hselector : ∀ path, FailsWith (· ≠ .unreadableLeaves) (readSelector path) :=
    fun path => .mapError (fun e => by simp) _
  cases asked with
  | get owner path =>
      refine .bind (.mapError (fun e => by simp) _) fun target => ?_
      split
      · exact .error (by simp)
      · exact .ok _
  | getMany owner paths => exact .ok _
  | query owner path =>
      rw [Store.found]
      split
      · exact .ok _
      · exact .bind (hselector path) fun q => (failsWith_select s _ q).mono hengine
  | queryAcross dataspace path paging =>
      rw [Store.found]
      split
      · exact .error (by simp)
      · refine .bind (hselector path) fun q => .bind ?_ fun scope => ?_
        · exact (failsWith_pageScope dataspace q paging).mono hengine
        · exact (failsWith_select s scope q).mono hengine

/-! ## Nodes of rows -/

theorem failsWith_assemble (r : Row) (children : List Node) :
    FailsWith (· = .unreadableLeaves) (assemble r children) := by
  rw [assemble]
  split
  · exact .error rfl
  · exact .ok _

theorem failsWith_childNodes (fetch : Fetch) (parent : Nat) (rows : List Row) :
    FailsWith (· = .unreadableLeaves) (childNodes fetch parent rows) := by
  induction rows generalizing fetch parent with
  | nil => exact .ok _
  | cons r rest ih =>
      by_cases hparent : r.parent = some parent
      · rw [childNodes_cons hparent, nodesBelow]
        refine .bind ?_ fun below => .bind (failsWith_assemble r below) fun node =>
          .bind (ih fetch parent) fun more => .ok _
        split
        · exact ih fetch.next r.id
        · exact .ok _
      · rw [childNodes, if_neg hparent]
        exact ih fetch parent

theorem failsWith_node (s : Store) (fetch : Fetch) (r : Row) :
    FailsWith (· = .unreadableLeaves) (s.node fetch r) := by
  rw [node_eq, nodesBelow]
  refine .bind ?_ fun below => failsWith_assemble r below
  split
  · exact failsWith_childNodes fetch.next r.id s.rows
  · exact .ok _

/-- Reading nodes fails for leaves that cannot be read, and for nothing else. -/
theorem failsWith_nodes (s : Store) (fetch : Fetch) (rows : List Row) :
    FailsWith (· = .unreadableLeaves) (s.nodes fetch rows) :=
  .mapM (failsWith_node s fetch) rows

/-- A row of a plain store is read as a valid node, if the nodes below it are
valid and extend its path. -/
theorem validate_of_assemble (hs : s.Sound) (hplain : s.Plain) {r : Row} (hr : r ∈ s.rows)
    {children : List Node} {n : Node} (h : assemble r children = .ok n)
    (hchildren : ∀ c ∈ children, c.validate = .ok () ∧ Extends r.path c.path) :
    n.validate = .ok () := by
  have hroot := (hs.canonical r hr).2
  obtain ⟨leaves, hparse, rfl⟩ := assemble_eq_ok_iff.mp h
  obtain ⟨leaves', hparse', hall⟩ := hplain r hr
  cases hparse.symm.trans hparse'
  refine Node.validate_eq_ok_iff.mpr ⟨?_, Leaves.badLeaf?_eq_none_iff.mpr hall, ?_⟩
  · intro hempty
    rw [hempty] at hroot
    cases hroot
  · refine Node.validateAll_eq_ok_iff.mpr fun e he => ?_
    rcases Keyed.mem_insertAll he with he | he
    · cases he
    · obtain ⟨c, hc, rfl⟩ := List.mem_map.mp he
      obtain ⟨hvalid, hextends⟩ := hchildren c hc
      exact ⟨(isChildPath_iff hroot).mpr hextends, hvalid⟩

/-- The nodes read below a row are valid and extend its path. -/
theorem validate_of_childNodes (hs : s.Sound) (hplain : s.Plain) {rows : List Row}
    (hrows : ∀ r ∈ rows, r ∈ s.rows) {p : Row} (hp : p ∈ s.rows) {fetch : Fetch}
    {children : List Node} (h : childNodes fetch p.id rows = .ok children) :
    ∀ n ∈ children, n.validate = .ok () ∧ Extends p.path n.path := by
  induction rows generalizing fetch p children with
  | nil =>
      cases h
      simp
  | cons r rest ih =>
      have hr := hrows r List.mem_cons_self
      have hrest := fun q hq => hrows q (List.mem_cons_of_mem r hq)
      by_cases hparent : r.parent = some p.id
      · rw [childNodes_cons hparent] at h
        obtain ⟨below, hbelow, h⟩ := bind_eq_ok_iff.mp h
        obtain ⟨node, hnode, h⟩ := bind_eq_ok_iff.mp h
        obtain ⟨more, hmore, h⟩ := bind_eq_ok_iff.mp h
        cases h
        intro n hn
        rcases List.mem_cons.mp hn with rfl | hn
        · refine ⟨validate_of_assemble hs hplain hr hnode fun c hc => ?_, ?_⟩
          · rw [nodesBelow] at hbelow
            split at hbelow
            · exact ih hrest hr hbelow c hc
            · cases hbelow
              cases hc
          · obtain ⟨leaves, -, rfl⟩ := assemble_eq_ok_iff.mp hnode
            exact (hs.of_parent hp hr hparent).2
        · exact ih hrest hp hmore n hn
      · rw [childNodes, if_neg hparent] at h
        exact ih hrest hp h

/-- The node of a row is valid. -/
theorem validate_of_node (hs : s.Sound) (hplain : s.Plain) {r : Row} (hr : r ∈ s.rows)
    {fetch : Fetch} {n : Node} (h : s.node fetch r = .ok n) : n.validate = .ok () := by
  rw [node_eq] at h
  obtain ⟨below, hbelow, hassemble⟩ := bind_eq_ok_iff.mp h
  refine validate_of_assemble hs hplain hr hassemble fun c hc => ?_
  rw [nodesBelow] at hbelow
  split at hbelow
  · exact validate_of_childNodes hs hplain (fun q hq => hq) hr hbelow c hc
  · cases hbelow
    cases hc

/-! ## Stores with valid reads -/

theorem readsValid_of_plain (hs : s.Sound) (hplain : s.Plain) : s.ReadsValid := by
  intro asked fetch
  rw [read_eq]
  cases hfound : s.found asked with
  | error e =>
      refine ⟨fun h => ?_, fun nodes h => ?_⟩
      · cases h
        exact failsWith_found asked _ hfound rfl
      · cases h
  | ok rows =>
      have hrows := mem_of_found hfound
      obtain ⟨nodes, hnodes⟩ :=
        exists_mapM_eq_ok fun r hr => hplain.exists_node fetch (hrows r hr)
      show s.nodes fetch rows ≠ _ ∧ ∀ found, s.nodes fetch rows = .ok found → _
      rw [Store.nodes, hnodes]
      refine ⟨fun h => ?_, fun found h n hn => ?_⟩
      · cases h
      · cases h
        obtain ⟨r, hr, hread⟩ := exists_of_mapM_eq_ok hnodes hn
        exact validate_of_node hs hplain (hrows r hr) hread

/-- A row is found at its path. -/
theorem mem_rowsAtAny (hs : s.Sound) {r : Row} (hr : r ∈ s.rows) :
    r ∈ s.rowsAtAny r.owner [r.path] := by
  obtain ⟨hnormalize, hroot⟩ := hs.canonical r hr
  have htarget : nodePath? r.path = some r.path := by
    rw [nodePath?, hroot, hnormalize]
    rfl
  refine List.mem_filter.mpr ⟨hr, ?_⟩
  simp [htarget, liesAt]

theorem plain_of_readsValid (hs : s.Sound) (hvalid : s.ReadsValid) : s.Plain := by
  intro r hr
  -- the row alone is read at its path
  let asked : Read := .getMany ⟨r.owner, 0, "", ""⟩ [r.path]
  obtain ⟨hreadable, hnodes⟩ := hvalid asked .nodeOnly
  have hread : s.read .nodeOnly asked = s.nodes .nodeOnly (s.rowsAtAny r.owner [r.path]) := rfl
  rw [hread] at hreadable hnodes
  cases hfound : s.nodes .nodeOnly (s.rowsAtAny r.owner [r.path]) with
  | error e =>
      rw [hfound, failsWith_nodes s _ _ e hfound] at hreadable
      exact absurd rfl hreadable
  | ok nodes =>
      obtain ⟨n, hn, hnode⟩ := exists_of_mem_of_mapM hfound (mem_rowsAtAny hs hr)
      obtain ⟨leaves, hparse, rfl⟩ := assemble_eq_ok_iff.mp hnode
      have hleaves := Node.badLeaf?_of_validate (hnodes nodes hfound _ hn)
      exact ⟨leaves, hparse, Leaves.badLeaf?_eq_none_iff.mp hleaves⟩

/-- Reads are valid exactly if all stored leaves are scalars and lists of
scalars. -/
theorem readsValid_iff (hs : s.Sound) : s.ReadsValid ↔ s.Plain :=
  ⟨plain_of_readsValid hs, readsValid_of_plain hs⟩

end

/-! ## Where leaves come from -/

/-- Whether the leaves that a write is given are maps that can be held. -/
def Write.Held (w : Write) : Prop :=
  (∀ top ∈ w.trees, ∀ n : Node, n.Within top → n.leaves.Held) ∧ ∀ leaves ∈ w.merges, leaves.Held

/-- Whether the leaves that a write merges into rows are scalars and lists of
scalars. -/
def Write.MergesPlain (w : Write) : Prop := ∀ leaves ∈ w.merges, Node.badLeaf? leaves = none

/-- Whether a text is that of leaves of a valid node. -/
def IsPlainText (text : String) : Prop :=
  ∃ leaves, Leaves.parse text = some leaves ∧ leaves.Held ∧ Node.badLeaf? leaves = none

/-- The leaves of trees are checked; merged ones have to be as a check would
have them. -/
theorem Write.Held.fills {w : Write} (h : w.Held) (hmerges : w.MergesPlain) :
    w.Fills (fun _ => True) IsPlainText where
  trees := by
    intro top htop n hn hvalid path _
    obtain ⟨target, leaves, children⟩ := n
    exact ⟨trivial, Leaves.exists_parse_text (h.1 top htop _ hn) (Node.badLeaf?_of_validate hvalid)⟩
  merges := by
    rintro leaves hleaves text old ⟨old', hparse', hheld, hplain⟩ hparse
    cases hparse.symm.trans hparse'
    exact Leaves.exists_parse_text (hheld.insertAll (h.2 leaves hleaves))
      (Leaves.badLeaf?_insertAll hplain (hmerges leaves hleaves))

/-- As long as what updates merge is as a check would have it, all stored
leaves are scalars and lists of scalars. -/
theorem plain_after {history : List Operation}
    (h : ∀ operation ∈ history, ∀ w, operation.write? = some w → w.Held ∧ w.MergesPlain) :
    (Store.empty.after history).Plain := by
  intro r hr
  have hfilled := filled_after fun operation hmem w hw =>
    (h operation hmem w hw).1.fills (h operation hmem w hw).2
  obtain ⟨leaves, hparse, -, hplain⟩ := (hfilled r hr).2
  exact ⟨leaves, hparse, Leaves.badLeaf?_eq_none_iff.mp hplain⟩

/-! ## What an update lets in -/

/-- A store with one owner, who updates one leaf of a node without leaves. -/
def updating (leaf : String) (value : Json) : List Operation :=
  storing "/a"
    ++ [.request .readWrite (.write ⟨1, 1, "d", "o"⟩ (.updateLeaves "/a" [(leaf, value)]))]

/-- What the node is updated with is stored unchecked. -/
theorem rows_updating (leaf : String) (value : Json) :
    (Store.empty.after (updating leaf value)).rows
      = [⟨1, 1, "/a", none, Leaves.text [(leaf, value)]⟩] := by
  let owner : Owner := ⟨1, 1, "d", "o"⟩
  let row : Row := ⟨1, 1, "/a", none, Leaves.text []⟩
  let s : Store :=
    { dataspaces := [⟨1, "d"⟩], owners := [⟨1, 1, "o"⟩], rows := [row],
      lastDataspace := 1, lastOwner := 1, lastRow := 1 }
  have hstored : Store.empty.after (storing "/a") = s := by decide +kernel
  have hpath : normalize "/a" = .ok "/a" := by decide +kernel
  have hrow : ((normalize "/a").toOption.bind (s.rowAt? 1)) = some row := by decide +kernel
  have hleaves : Leaves.parse row.attributes = some [] :=
    Leaves.parse_text ⟨List.Pairwise.nil, trivial⟩ rfl
  let edit : Edit := .update 1 "/a" (Leaves.text []) (Leaves.text [(leaf, value)])
  have hedits : mergeEdits s 1 "/a" [(leaf, value)] = .ok [edit] := by
    rw [mergeEdits, hrow]
    dsimp only
    rw [hleaves]
    rfl
  have hplan : planUpdateLeaves s owner "/a" [(leaf, value)] = .ok (.edits [edit]) := by
    rw [planUpdateLeaves, hpath]
    show (batchEdits s 1 [("/a", [(leaf, value)])] >>= _) = _
    rw [batchEdits, hedits]
    rfl
  have hwrite : s.write .readWrite owner (.updateLeaves "/a" [(leaf, value)])
      = Change.commit s owner (.edits [edit]) := by
    rw [Store.write, Write.plan, hplan]
    rfl
  rw [updating, Store.after, List.foldl_append]
  show ((Store.empty.after (storing "/a")).write .readWrite owner
    (.updateLeaves "/a" [(leaf, value)])).1.rows = _
  rw [hstored, hwrite]
  rfl

/-- A node updated with values that nest too deep is found, but cannot be
read. -/
theorem get_updating {leaf : String} {value : Json} (h : value.Held)
    (hdeep : Json.maxNesting ≤ value.depth) (fetch : Fetch) :
    (Store.empty.after (updating leaf value)).read fetch (.get ⟨1, 1, "d", "o"⟩ "/a")
      = .error .unreadableLeaves := by
  let row : Row := ⟨1, 1, "/a", none, Leaves.text [(leaf, value)]⟩
  have hs := sound_after (updating leaf value)
  have hrows : (Store.empty.after (updating leaf value)).rows = [row] := rows_updating leaf value
  generalize Store.empty.after (updating leaf value) = s at hs hrows ⊢
  have hparse : Leaves.parse row.attributes = none := by
    have hleaves : Leaves.Held [(leaf, value)] := ⟨List.pairwise_singleton _ _, h, trivial⟩
    cases hread : Leaves.parse row.attributes with
    | none => rfl
    | some read =>
        have hshallow := (Leaves.badLeaf?_of_parse_text hleaves hread).2
        have hvalue := Leaves.shallow_iff.mp hshallow (leaf, value) List.mem_cons_self
        exact absurd hvalue (Nat.not_lt.mpr hdeep)
  have hnode : s.node fetch row = .error .unreadableLeaves := by
    have hbelow : nodesBelow fetch row s.rows = .ok [] := by
      rw [nodesBelow, hrows]
      split <;> rfl
    simp only [node_eq, hbelow, bind, Except.bind, assemble, hparse]
  have hfound : s.found (.get ⟨1, 1, "d", "o"⟩ "/a") = .ok [row] := by
    have hmem := mem_rowsAtAny hs (hrows ▸ List.mem_singleton.mpr rfl : row ∈ s.rows)
    have hlookup : s.rowsAtAny 1 ["/a"] = [row] := by
      rw [Store.rowsAtAny, hrows]
      exact List.filter_cons_of_pos (List.mem_filter.mp hmem).2
    have hpath : normalize "/a" = .ok "/a" := by decide +kernel
    rw [Store.found, hpath]
    show (match s.rowsAtAny 1 ["/a"] with | [] => _ | rows => _) = _
    rw [hlookup]
    rfl
  rw [read_eq, hfound]
  show s.nodes fetch [row] = _
  rw [Store.nodes, List.mapM_cons, hnode]
  rfl

/-! ## When reads are valid -/

/-- Reads of a store give valid trees, and meet no leaves that cannot be read,
exactly if all stored leaves are scalars and lists of scalars.  So they do as
long as the leaves that updates merge are, whatever else has been run.  But an
update stores any other value too, and one that nests too deep makes its node
unreadable. -/
theorem reads_valid (history : List Operation) :
    ((Store.empty.after history).ReadsValid ↔ (Store.empty.after history).Plain)
      ∧ ((∀ operation ∈ history, ∀ w, operation.write? = some w → w.Held ∧ w.MergesPlain) →
          (Store.empty.after history).ReadsValid)
      ∧ ∀ leaf (value : Json), value.Held → value.isLeafValue = false →
          ¬(Store.empty.after (updating leaf value)).ReadsValid
            ∧ (Json.maxNesting ≤ value.depth → ∀ fetch,
              (Store.empty.after (updating leaf value)).read fetch (.get ⟨1, 1, "d", "o"⟩ "/a")
                = .error .unreadableLeaves) := by
  refine ⟨readsValid_iff (sound_after history), fun hall => ?_,
    fun leaf value hheld hvalue => ⟨fun hvalid => ?_, get_updating hheld⟩⟩
  · exact readsValid_of_plain (sound_after history) (plain_after hall)
  · have hplain := plain_of_readsValid (sound_after _) hvalid
    have hleaves : Leaves.Held [(leaf, value)] := ⟨List.pairwise_singleton _ _, hheld, trivial⟩
    obtain ⟨read, hparse, hall⟩ := hplain ⟨1, 1, "/a", none, Leaves.text [(leaf, value)]⟩
      (by rw [rows_updating]; exact List.mem_singleton.mpr rfl)
    have hsame := (Leaves.badLeaf?_of_parse_text hleaves hparse).1
    rw [Leaves.badLeaf?_eq_none_iff.mpr hall] at hsame
    have hleaf := Leaves.badLeaf?_eq_none_iff.mp hsame.symm (leaf, value) List.mem_cons_self
    rw [hvalue] at hleaf
    cases hleaf

/-- A tree with a list as a leaf, and a double merged into its lower node. -/
theorem reads_valid_of_doubles :
    let owner : Owner := ⟨1, 1, "d", "o"⟩
    let tenth : Json := .number (.double ⟨false, 7205759403792794, -56⟩)
    let child : Node := .mk "/a/b" [("l", .array [tenth, .null])] []
    let tree : Node := .mk "/a" [("x", .bool true)] [("/a/b", child)]
    let history : List Operation := [.request .readWrite (.createDataspace "d"),
      .request .readWrite (.createOwner ⟨1, "d"⟩ "o"),
      .request .readWrite (.write owner (.store [tree])),
      .request .readWrite (.write owner (.updateLeaves "/a/b" [("k", tenth)]))]
    (∀ operation ∈ history, ∀ w, operation.write? = some w → w.Held ∧ w.MergesPlain)
      ∧ (Store.empty.after history).rows.map Row.attributes
        = ["\x7b\"x\":true\x7d", "\x7b\"k\":0.1,\"l\":[0.1,null]\x7d"]
      ∧ (Store.empty.after history).ReadsValid := by
  intro owner tenth child tree history
  have htenth : tenth.Held := ⟨by decide, by decide, by decide⟩
  have hlist : (Json.array [tenth, .null]).Held := ⟨htenth, trivial, trivial⟩
  have hchild : child.leaves.Held := ⟨List.pairwise_singleton _ _, hlist, trivial⟩
  have htree : tree.leaves.Held := ⟨List.pairwise_singleton _ _, trivial, trivial⟩
  have hparts : ∀ n : Node, n.Within tree → n.leaves.Held := by
    intro n hn
    cases hn with
    | self => exact htree
    | child hc hn =>
        obtain rfl := List.mem_singleton.mp hc
        cases hn with
        | self => exact hchild
        | child hc hn => cases hc
  have hgiven : ∀ operation ∈ history, ∀ w, operation.write? = some w → w.Held ∧ w.MergesPlain := by
    intro operation hmem w hw
    simp only [history, List.mem_cons, List.not_mem_nil, or_false] at hmem
    rcases hmem with rfl | rfl | rfl | rfl <;> cases hw
    · refine ⟨⟨fun top htop => ?_, fun leaves hleaves => ?_⟩, fun leaves hleaves => ?_⟩
      · obtain rfl := List.mem_singleton.mp htop
        exact hparts
      · cases hleaves
      · cases hleaves
    · refine ⟨⟨fun top htop => ?_, fun leaves hleaves => ?_⟩, fun leaves hleaves => ?_⟩
      · cases htop
      · obtain rfl := List.mem_singleton.mp hleaves
        exact ⟨List.pairwise_singleton _ _, htenth, trivial⟩
      · obtain rfl := List.mem_singleton.mp hleaves
        rfl
  exact ⟨hgiven, by decide +kernel, (reads_valid history).2.1 hgiven⟩

/-- Two updates that merge values no leaf may have: an object, after which a
node is read that is not valid, and lists nested too deep, after which the node
cannot be read at all. -/
theorem update_unchecked :
    let owner : Owner := ⟨1, 1, "d", "o"⟩
    (∃ history, ((Store.empty.after history).read .all (.get owner "/a")).map
        (List.map Node.validate) = .ok [.error (.unsupportedLeaf "/a" "x")])
      ∧ ∃ history, (Store.empty.after history).read .all (.get owner "/a")
        = .error .unreadableLeaves := by
  have hnested : ∀ depth, ∃ v : Json, v.Held ∧ v.depth = depth := by
    intro depth
    induction depth with
    | zero => exact ⟨.null, trivial, rfl⟩
    | succ depth ih =>
        obtain ⟨v, hheld, hdepth⟩ := ih
        refine ⟨.array [v], ⟨hheld, trivial⟩, ?_⟩
        rw [Json.depth, Json.itemsDepth, Json.itemsDepth, hdepth, Nat.max_zero]
  obtain ⟨v, hheld, hdepth⟩ := hnested Json.maxNesting
  exact ⟨⟨updating "x" (.object [("y", .null)]), by decide +kernel⟩,
    ⟨updating "x" v, get_updating hheld hdepth.ge .all⟩⟩

end DataTree
