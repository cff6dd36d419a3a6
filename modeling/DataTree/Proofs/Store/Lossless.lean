import DataTree.Proofs.Store.Appended
import DataTree.Proofs.Store.Reachable

/-!
# Stored trees read back

A tree is flattened into rows when it is written and put together from rows
when it is read.  The two are inverse up to the spelling of paths: after
trees were stored, the roots of the owner read as before and after them the
new trees, and after subtrees were added under a node, that node reads as
before with these subtrees as further children.

## Main definitions

* `TreesAdded` — what a write that adds trees leaves of the rows.

## Main results

* `get_eq_ok_iff` — when a lookup of one path is answered.
* `stored_trees_read_back` — both of the above.
-/

namespace DataTree

open DataTree.Path

/-! ## Lookups -/

/-- The root marker stands for the roots of the trees. -/
theorem rowsAtAny_of_isRoot {path : String} (hroot : isRoot path = true) (s : Store)
    (owner : Nat) : s.rowsAtAny owner [path] = s.childRows owner none := by
  rw [Store.rowsAtAny, Store.childRows]
  refine List.filter_congr fun r _ => ?_
  cases r.parent <;> simp [nodePath?, hroot]

theorem rowsAtAny_node {path target : String} (hroot : isRoot path = false)
    (h : normalize path = .ok target) (s : Store) (owner : Nat) :
    s.rowsAtAny owner [path] = s.rowsAt owner target := by
  simp [Store.rowsAtAny, Store.rowsAt, nodePath?, hroot, h, Except.toOption]

theorem liesAt_self (target : String) : liesAt target target = true := by
  simp [liesAt]

/-- A lookup finds the path asked for or that path with a key. -/
theorem eq_or_key_of_liesAt {target path : String} (h : liesAt target path = true) :
    path = target ∨ ∃ key, isKeyPredicate key = true ∧ path.toList = target.toList ++ key := by
  rw [liesAt, Bool.or_eq_true, decide_eq_true_eq] at h
  rcases h with h | h
  · exact .inl h
  · rw [Bool.and_eq_true] at h
    rcases matchesAddress_iff.mp h.2 with heq | hkey
    · exact .inl (String.toList_inj.mp heq)
    · exact .inr hkey

/-- A lookup does not find what lies inside the tree at the path. -/
theorem not_liesAt_of_extends {target path : String} (h : Extends target path) :
    liesAt target path = false := by
  obtain ⟨rest, hrest, hpath⟩ := extends_iff_toList.mp h
  rw [← Bool.not_eq_true]
  intro hlies
  rcases eq_or_key_of_liesAt hlies with rfl | ⟨key, hkey, heq⟩
  · have := congrArg List.length hpath
    simp at this
  · rw [hpath] at heq
    rw [← List.append_cancel_left heq] at hkey
    cases hkey

/-- Nor does it find what lies above. -/
theorem not_extends_of_liesAt {target path : String} (h : liesAt target path = true) :
    ¬Extends path target := by
  intro hextends
  obtain ⟨rest, -, htarget⟩ := extends_iff_toList.mp hextends
  have hlength := congrArg List.length htarget
  rw [List.length_append, List.length_cons] at hlength
  rcases eq_or_key_of_liesAt h with rfl | ⟨key, -, hpath⟩
  · omega
  · rw [hpath, List.length_append] at hlength
    omega

/-- So a lookup of the path of a row finds neither what is below the row nor what
is above. -/
theorem not_liesAt_of_below {s : Store} (hs : s.Sound) {r q : Row} (hbelow : AtOrBelow s.rows r q)
    (hne : q ≠ r) : liesAt r.path q.path = false :=
  not_liesAt_of_extends ((hs.eq_or_extends hbelow).2.resolve_left hne.symm)

theorem not_below_of_liesAt {s : Store} (hs : s.Sound) {r q : Row}
    (h : liesAt r.path q.path = true) (hne : q ≠ r) : ¬AtOrBelow s.rows q r :=
  fun hbelow => not_extends_of_liesAt h ((hs.eq_or_extends hbelow).2.resolve_left hne)

theorem get_eq_ok_iff {s : Store} {owner : Owner} {path : String} {fetch : Fetch}
    {ns : List Node} :
    s.get owner path fetch = .ok ns ↔
      (∃ target, normalize path = .ok target) ∧ s.getMany owner [path] fetch = .ok ns
        ∧ ns ≠ [] := by
  constructor
  · intro h
    obtain ⟨target, htarget, h⟩ := bind_eq_ok_iff.mp h
    obtain ⟨found, hfound, h⟩ := bind_eq_ok_iff.mp h
    split at h
    · cases h
    · rename_i hne
      cases h
      exact ⟨⟨target, mapError_eq_ok_iff.mp htarget⟩, hfound, hne⟩
  · rintro ⟨⟨target, htarget⟩, hfound, hne⟩
    refine bind_eq_ok_iff.mpr ⟨target, mapError_eq_ok_iff.mpr htarget, ?_⟩
    refine bind_eq_ok_iff.mpr ⟨ns, hfound, ?_⟩
    split
    · exact absurd rfl hne
    · rfl

/-- A row found by its name has a path that is not the root marker. -/
theorem isRoot_of_rowNamed {s : Store} (hs : s.Sound) {owner : Owner} {path : String} {r : Row}
    (h : s.rowNamed owner path = .ok r) : isRoot path = false := by
  obtain ⟨hr, -, hpath⟩ := rowNamed_eq_ok h
  rw [← Bool.not_eq_true]
  intro hroot
  rw [Path.normalize, if_pos hroot] at hpath
  have := (hs.canonical r hr).2
  rw [← Except.ok.inj hpath] at this
  cases this

/-- A row occurs once among those at its path. -/
theorem exists_split_rowsAt {s : Store} (hs : s.Sound) {owner : Nat} {r : Row}
    (hr : r ∈ s.rows) (howner : r.owner = owner) :
    ∃ left right, s.rowsAt owner r.path = left ++ r :: right ∧ r ∉ left ∧ r ∉ right := by
  have hmem : r ∈ s.rowsAt owner r.path :=
    List.mem_filter.mpr ⟨hr, by simp [howner, liesAt_self]⟩
  have hnodup : (s.rowsAt owner r.path).Nodup := hs.nodup.filter _
  obtain ⟨left, right, hsplit⟩ := List.append_of_mem hmem
  rw [hsplit, List.nodup_append, List.nodup_cons] at hnodup
  refine ⟨left, right, hsplit, fun hleft => ?_, hnodup.2.1.1⟩
  exact hnodup.2.2 r hleft r List.mem_cons_self rfl

/-- The nodes at a path, read from two stores that have the same rows at it: where
those beside the row of exactly that path read alike, only its own node may
differ. -/
theorem get_beside {s s' : Store} {owner : Owner} {path : String} {r : Row} (hs : s.Sound)
    (hplain : s.Plain) (hr : s.rowNamed owner path = .ok r)
    (hrows : s'.rowsAt owner.id r.path = s.rowsAt owner.id r.path)
    (hbeside : ∀ q ∈ s.rowsAt owner.id r.path, q ≠ r → s'.node .all q = s.node .all q) :
    ∃ front former back, s.get owner path .all = .ok (front ++ former :: back)
      ∧ s.node .all r = .ok former
      ∧ ∀ later, s'.node .all r = .ok later →
        s'.get owner path .all = .ok (front ++ later :: back) := by
  obtain ⟨hmem, howner, hpath⟩ := rowNamed_eq_ok hr
  have hlookup : ∀ t : Store, t.getMany owner [path] .all
      = (t.rowsAt owner.id r.path).mapM (t.node .all) := fun t => by
    rw [Store.getMany, Store.nodes, rowsAtAny_node (isRoot_of_rowNamed hs hr) hpath]
  obtain ⟨left, right, hsplit, hleft, hright⟩ := exists_split_rowsAt hs hmem howner
  rw [hsplit] at hrows hbeside
  have hsub : ∀ q ∈ left ++ r :: right, q ∈ s.rows := by
    rw [← hsplit]
    exact fun q hq => (List.mem_filter.mp hq).1
  obtain ⟨front, hfront⟩ := exists_mapM_eq_ok fun q hq =>
    hplain.exists_node .all (hsub q (List.mem_append_left _ hq))
  obtain ⟨former, hformer⟩ := hplain.exists_node .all hmem
  obtain ⟨back, hback⟩ := exists_mapM_eq_ok fun q hq =>
    hplain.exists_node .all (hsub q (List.mem_append_right _ (List.mem_cons_of_mem _ hq)))
  have hfront' : left.mapM (s'.node .all) = .ok front := by
    rw [← hfront]
    refine mapM_congr fun q hq => hbeside q (List.mem_append_left _ hq) fun heq => ?_
    exact hleft (heq ▸ hq)
  have hback' : right.mapM (s'.node .all) = .ok back := by
    rw [← hback]
    refine mapM_congr fun q hq => hbeside q ?_ fun heq => hright (heq ▸ hq)
    exact List.mem_append_right _ (List.mem_cons_of_mem _ hq)
  refine ⟨front, former, back, get_eq_ok_iff.mpr ⟨⟨_, hpath⟩, ?_, by simp⟩, hformer,
    fun later hlater => get_eq_ok_iff.mpr ⟨⟨_, hpath⟩, ?_, by simp⟩⟩
  · rw [hlookup, hsplit, List.mapM_append, List.mapM_cons, hfront, hformer, hback]
    rfl
  · rw [hlookup, hrows, List.mapM_append, List.mapM_cons, hfront', hlater, hback']
    rfl

/-! ## Lookups after insertions -/

namespace Appended

variable {owner : Nat} {parent : Option Nat} {ds : List Draft} {s t : Store}

/-- New trees come after the trees that were there. -/
theorem roots (h : Appended owner none ds s t) :
    t.rowsAtAny owner [rootPath]
      = s.rowsAtAny owner [rootPath] ++ Draft.topsOf owner none (s.lastRow + 1) ds := by
  rw [rowsAtAny_of_isRoot rfl, rowsAtAny_of_isRoot rfl, Store.childRows, h.rows,
    List.filter_append, ← Draft.filter_rowsOfAll h.parent_lt]
  congr 1
  refine List.filter_congr fun r hr => ?_
  rw [Draft.owner_of_mem_rowsOfAll ds hr]
  simp

/-- New rows below a node are not found at its path. -/
theorem rowsAt_parent (h : Appended owner parent ds s t) {r : Row} (hr : r ∈ s.rows)
    (hparent : parent = some r.id) : t.rowsAt owner r.path = s.rowsAt owner r.path := by
  have hnew : (Draft.rowsOfAll owner parent (s.lastRow + 1) ds).filter
      (fun c => c.owner = owner && liesAt r.path c.path) = [] := by
    rw [List.filter_eq_nil_iff]
    intro c hc
    have hlow := Draft.le_id_of_mem_rowsOfAll ds hc
    have hne : c ≠ r := by
      rintro rfl
      have := h.before.fresh c hr
      omega
    simp [not_liesAt_of_below h.after (h.below_parent hr hparent hc) hne]
  rw [Store.rowsAt, h.rows, List.filter_append, hnew, List.append_nil, Store.rowsAt]

/-- Rows found beside a node read as before. -/
theorem node_beside (h : Appended owner parent ds s t) {r : Row} (hr : r ∈ s.rows)
    (hparent : parent = some r.id) {q : Row}
    (hq : q ∈ s.rowsAt owner r.path) (hne : q ≠ r) (fetch : Fetch) :
    t.node fetch q = s.node fetch q := by
  obtain ⟨hq, hfound⟩ := List.mem_filter.mp hq
  rw [Bool.and_eq_true, decide_eq_true_eq] at hfound
  refine h.node_apart hq (fun x hx hx' hbelow => ?_) fetch
  obtain rfl := h.before.eq_of_id hr hx (Option.some.inj (hparent.symm.trans hx'))
  exact not_below_of_liesAt h.before hfound.2 hne hbelow

end Appended

/-! ## Trees added -/

/-- What a write that adds the trees `nodes` for an owner leaves of the rows
of a store. -/
structure TreesAdded (owner : Owner) (nodes : List Node) (summary : Summary) (s s' : Store) :
    Prop where
  /-- The nodes of all trees are counted, and nothing else. -/
  counted : summary = { inserted := ((Node.listed nodes).map Node.size).sum }
  /-- Each node has become one row, under the canonical form of its path,
  after all rows that were there. -/
  appended : ∃ new, s'.rows = s.rows ++ new ∧ new.length = summary.inserted
    ∧ new.map Row.path = ((Node.listed nodes).flatMap Node.paths).map canonicalPath
  /-- No two nodes, at any depth, have one canonical path. -/
  distinct : (((Node.listed nodes).flatMap Node.paths).map canonicalPath).Nodup
  /-- And none of these paths was stored. -/
  fresh : ∀ path ∈ (Node.listed nodes).flatMap Node.paths,
    canonicalPath path ∉ s.pathsOf owner.id

theorem sizeOfAll_of_drafted {ns : List Node} {ds : List Draft}
    (h : List.Forall₂ Node.Drafted ns ds) : Draft.sizeOfAll ds = (ns.map Node.size).sum := by
  induction h with
  | nil => rfl
  | cons hd _ ih => rw [Draft.sizeOfAll, List.map_cons, List.sum_cons, size_of_ofNode _ hd.2, ih]

section

variable {s s' : Store} {owner : Owner} {nodes : List Node} {ds : List Draft}
  {summary : Summary}

/-- Drafts of listed nodes that were appended are trees added. -/
theorem Appended.treesAdded {parent : Option Nat} (h : Appended owner.id parent ds s s')
    (hdrafted : List.Forall₂ Node.Drafted (Node.listed nodes) ds)
    (hsummary : summary = { inserted := Draft.sizeOfAll ds }) :
    TreesAdded owner nodes summary s s' := by
  have hpaths := pathsOfAll_of_drafted hdrafted
  refine
    { counted := by rw [hsummary, sizeOfAll_of_drafted hdrafted]
      appended := ⟨_, h.rows, ?_, ?_⟩, distinct := hpaths ▸ h.nodup
      fresh := fun path hpath => h.fresh _ ?_ }
  · rw [Draft.length_rowsOfAll, hsummary]
  · rw [Draft.map_path_rowsOfAll, hpaths]
  · rw [hpaths]
    exact List.mem_map_of_mem hpath

/-! ## New trees -/

/-- New trees that were stored are appended as drafts without a parent. -/
theorem appended_of_store {access : Access} (hs : s.Sound)
    (hexact : ∀ n ∈ Node.listed nodes, n.Exact)
    (h : s.write access owner (.store nodes) = (s', .ok summary)) :
    ∃ ds, List.Forall₂ Node.Drafted (Node.listed nodes) ds ∧ Appended owner.id none ds s s'
      ∧ summary = { inserted := Draft.sizeOfAll ds } := by
  have hs' : s'.Sound := by
    have hwritten := hs.write access owner (.store nodes)
    rwa [h] at hwritten
  obtain ⟨change, hplan, hcommit⟩ := write_eq_ok h
  obtain ⟨ds, hds, rfl⟩ := map_eq_ok_iff.mp hplan
  have hdrafted := forall₂_of_draftsOfAll hds
  refine ⟨ds, hdrafted, appended_of_commit hs hs' (fun g hg => ?_)
    (map_node_of_drafted hdrafted hexact).2 hcommit⟩
  cases hg

/-- The trees of an owner, read after new ones were appended. -/
theorem Appended.getMany_root (h : Appended owner.id none ds s s') (hplain : s.Plain) :
    ∃ before, s.getMany owner [rootPath] .all = .ok before
      ∧ s'.getMany owner [rootPath] .all = .ok (before ++ ds.map Draft.node) := by
  have hroots : ∀ q ∈ s.rowsAtAny owner.id [rootPath], q ∈ s.rows :=
    fun q hq => (List.mem_filter.mp hq).1
  obtain ⟨before, hbefore⟩ := exists_mapM_eq_ok fun q hq => hplain.exists_node .all (hroots q hq)
  refine ⟨before, hbefore, ?_⟩
  have hold : (s.rowsAtAny owner.id [rootPath]).mapM (s'.node .all) = .ok before := by
    rw [← hbefore]
    refine mapM_congr fun q hq => h.node_apart (hroots q hq) (fun r _ hr => ?_) .all
    cases hr
  rw [Store.getMany, Store.nodes, h.roots, List.mapM_append, hold, h.tops]
  rfl

/-! ## New subtrees -/

/-- Subtrees that were added under a stored node are appended as drafts under
its row. -/
theorem appended_of_add {access : Access} {parent : String} {r : Row} (hs : s.Sound)
    (hexact : ∀ n ∈ Node.listed nodes, n.Exact) (hr : s.rowNamed owner parent = .ok r)
    (h : s.write access owner (.add parent nodes) = (s', .ok summary)) :
    ∃ ds, List.Forall₂ Node.Drafted (Node.listed nodes) ds ∧ Appended owner.id (some r.id) ds s s'
      ∧ summary = { inserted := Draft.sizeOfAll ds } := by
  have hs' : s'.Sound := by
    have hwritten := hs.write access owner (.add parent nodes)
    rwa [h] at hwritten
  obtain ⟨hmem, -, -⟩ := rowNamed_eq_ok hr
  obtain ⟨change, hplan, hcommit⟩ := write_eq_ok h
  obtain ⟨⟨id, path⟩, hparent, hplan⟩ := bind_eq_ok_iff.mp hplan
  obtain ⟨ds, hds, hplan⟩ := bind_eq_ok_iff.mp hplan
  cases hplan
  rw [Store.parentNamed, if_neg (by rw [isRoot_of_rowNamed hs hr]; decide), hr] at hparent
  cases hparent
  have hdrafted := forall₂_of_draftsUnder hds
  refine ⟨ds, hdrafted, appended_of_commit hs hs' (fun g hg => ?_)
    (map_node_of_drafted hdrafted hexact).2 hcommit⟩
  cases hg
  exact hs.fresh r hmem

/-- The nodes at a path, read after subtrees were appended under the one of
exactly that path: that one has further children, and those beside it are
unchanged. -/
theorem Appended.get_parent {parent : String} {r : Row} (h : Appended owner.id (some r.id) ds s s')
    (hplain : s.Plain) (hr : s.rowNamed owner parent = .ok r) :
    ∃ front former back, s.get owner parent .all = .ok (front ++ former :: back)
      ∧ s.node .all r = .ok former
      ∧ s'.get owner parent .all
        = .ok (front ++ former.addChildren (ds.map Draft.node) :: back) := by
  obtain ⟨hmem, -, -⟩ := rowNamed_eq_ok hr
  obtain ⟨front, former, back, hget, hformer, hlater⟩ := get_beside h.before hplain hr
    (h.rowsAt_parent hmem rfl) fun q hq hne => h.node_beside hmem rfl hq hne .all
  exact ⟨front, former, back, hget, hformer, hlater _ (h.node_parent rfl hformer)⟩

/-- In a store whose leaves are scalars or lists of scalars, trees without
doubles that are stored read back: the roots of the owner are those before
and after them the trees in order, with canonical paths.  Subtrees added
under a stored node read back as further children of that node.  Every node
counts once, none takes the place of another, and rows that are not above
the new ones read as before. -/
theorem stored_trees_read_back (hs : Reachable s) (hplain : s.Plain)
    (hexact : ∀ n ∈ Node.listed nodes, n.Exact) (access : Access) :
    (∀ s' summary, s.write access owner (.store nodes) = (s', .ok summary) →
      TreesAdded owner nodes summary s s'
      ∧ (∀ q ∈ s.rows, ∀ fetch, s'.node fetch q = s.node fetch q)
      ∧ ∃ before, s.getMany owner [rootPath] .all = .ok before
        ∧ s'.getMany owner [rootPath] .all
          = .ok (before ++ (Node.listed nodes).map Node.canonical))
    ∧ ∀ parent r s' summary, s.rowNamed owner parent = .ok r →
      s.write access owner (.add parent nodes) = (s', .ok summary) →
      TreesAdded owner nodes summary s s'
      ∧ (∀ q ∈ s.rows, ¬AtOrBelow s.rows q r → ∀ fetch, s'.node fetch q = s.node fetch q)
      ∧ ∃ front former back, s.get owner parent .all = .ok (front ++ former :: back)
        ∧ s.node .all r = .ok former
        ∧ (∀ n ∈ Node.listed nodes, former.child? (canonicalPath n.path) = none)
        ∧ s'.get owner parent .all = .ok
          (front ++ former.addChildren ((Node.listed nodes).map Node.canonical) :: back) := by
  have hsound := sound_of_reachable hs
  constructor
  · intro s' summary hwrite
    obtain ⟨ds, hdrafted, happended, hsummary⟩ := appended_of_store hsound hexact hwrite
    obtain ⟨before, hbefore, hafter⟩ := happended.getMany_root hplain
    rw [(map_node_of_drafted hdrafted hexact).1] at hafter
    refine ⟨happended.treesAdded hdrafted hsummary, fun q hq fetch => ?_, before, hbefore, hafter⟩
    refine happended.node_apart hq (fun r _ hr => ?_) fetch
    cases hr
  · intro parent r s' summary hr hwrite
    obtain ⟨hmem, howner, -⟩ := rowNamed_eq_ok hr
    obtain ⟨ds, hdrafted, happended, hsummary⟩ := appended_of_add hsound hexact hr hwrite
    obtain ⟨front, former, back, hbefore, hformer, hafter⟩ := happended.get_parent hplain hr
    rw [(map_node_of_drafted hdrafted hexact).1] at hafter
    refine ⟨happended.treesAdded hdrafted hsummary, fun q hq hnot fetch => ?_,
      front, former, back, hbefore, hformer, fun n hn => ?_, hafter⟩
    · refine happended.node_apart hq (fun x hx hrx => ?_) fetch
      obtain rfl := hsound.eq_of_id hmem hx (Option.some.inj hrx)
      exact hnot
    · refine happended.child?_eq_none hmem howner hformer ?_
      rw [pathsOfAll_of_drafted hdrafted]
      exact List.mem_map_of_mem (List.mem_flatMap.mpr ⟨n, hn, List.mem_cons_self⟩)

end

/-- A root marker with two trees stored beside an old tree, and a subtree
added under that old tree, all under other spellings of their paths. -/
theorem stored_trees_read_back_of_root_marker :
    let owner : Owner := ⟨1, 1, "d", "o"⟩
    let child : Node := .mk "/a/b[ @k = \"1\" ]" [("x", .bool true)] []
    let marker : Node :=
      .mk "/" [] [("/a", .mk "/a" [] [(child.path, child)]), ("/c", .leafless "/c")]
    let inner : Node := .mk "/r/s[ @k = +1 ]" [("y", .array [.string "z"])] []
    ∃ s before front former back, Reachable s ∧ s.Plain
      ∧ s.getMany owner [rootPath] .all = .ok before
      ∧ (s.write .readWrite owner (.store [marker])).1.getMany owner [rootPath] .all
        = .ok (before ++ marker.children.map Node.canonical)
      ∧ s.get owner "/r" .all = .ok (front ++ former :: back)
      ∧ (s.write .readWrite owner (.add "/r" [inner])).1.get owner "/r" .all
        = .ok (front ++ former.addChildren [inner.canonical] :: back) := by
  intro owner child marker inner
  have hreach := Reachable.empty
    |>.step .readWrite (.createDataspace "d")
    |>.step .readWrite (.createOwner ⟨1, "d"⟩ "o")
    |>.step .readWrite (.write owner (.store [.mk "/r" [("n", .bool false)] []]))
  generalize hs : Request.run _ _ _ = s at hreach
  have hplain : s.Plain := by
    rw [← hs]
    decide +kernel
  have hstored : (s.write .readWrite owner (.store [marker])).2 = .ok { inserted := 3 } := by
    rw [← hs]
    decide +kernel
  have hadded : (s.write .readWrite owner (.add "/r" [inner])).2 = .ok { inserted := 1 } := by
    rw [← hs]
    decide +kernel
  have hnamed : (s.rowNamed owner "/r").toOption.isSome = true := by
    rw [← hs]
    decide +kernel
  obtain ⟨r, hr⟩ := Option.isSome_iff_exists.mp hnamed
  have hchildren : ∀ n ∈ Node.listed [marker], n.Exact := by
    simp [Node.listed, marker, child, Node.children, Node.keyedChildren, Keyed.values, isRoot,
      rootPath, Node.path, Node.leafless, Node.Exact, Node.AllExact, Leaves.Exact, Json.Exact,
      Json.MembersExact, Keyed.Sorted]
  have hinner : ∀ n ∈ Node.listed [inner], n.Exact := by
    simp [Node.listed, inner, isRoot, rootPath, Node.path, Node.Exact, Node.AllExact,
      Leaves.Exact, Json.Exact, Json.MembersExact, Json.ItemsExact, Keyed.Sorted]
  obtain ⟨-, -, before, hbefore, hafter⟩ :=
    (stored_trees_read_back hreach hplain hchildren .readWrite).1 _ _ (Prod.snd_eq_iff.mp hstored)
  obtain ⟨-, -, front, former, back, hfound, -, -, hgrown⟩ :=
    (stored_trees_read_back hreach hplain hinner .readWrite).2 "/r" r _ _
      (toOption_eq_some_iff.mp hr) (Prod.snd_eq_iff.mp hadded)
  exact ⟨s, before, front, former, back, hreach, hplain, hbefore, hafter, hfound, hgrown⟩

end DataTree
