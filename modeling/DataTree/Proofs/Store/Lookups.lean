import DataTree.Proofs.Store.Depth
import DataTree.Proofs.Store.Operations
import DataTree.Proofs.Store.Placement
import DataTree.Proofs.Store.Queries
import DataTree.Store.Merge

/-!
# Lookups of many paths

A lookup reads a range of the table for each path and merges what it finds.
The ranges of a list and of one of its elements overlap, and so do those of a
path in several spellings; still every row that some path asks for is found
once, in the order of the table, and nothing else is found.

## Main definitions

* `Row.IsAskedBy` — whether a path asks for a row.

## Main results

* `rowsInTurn_eq`, `getInTurn_eq` — range reads merged by id find the rows at any of the
  paths.
* `mem_rowsAtAny_iff` — these are the rows that the paths ask for.
* `getMany_matching` — what a lookup gives.
-/

namespace DataTree

open DataTree.Path

/-! ## Merging by id -/

namespace Row

theorem eq_or_mem_of_merge {r x : Row} {rows : List Row} (h : x ∈ merge r rows) :
    x = r ∨ x ∈ rows := by
  induction rows with
  | nil => exact .inl (List.mem_singleton.mp h)
  | cons q rest ih =>
      rw [merge] at h
      split at h
      · exact List.mem_cons.mp h
      · split at h
        · exact (List.mem_cons.mp h).imp_right (List.mem_cons_of_mem q)
        · rcases List.mem_cons.mp h with rfl | h
          · exact .inr List.mem_cons_self
          · exact (ih h).imp_right (List.mem_cons_of_mem q)

theorem pairwise_merge (r : Row) {rows : List Row} (h : rows.Pairwise fun p q => p.id < q.id) :
    (merge r rows).Pairwise fun p q => p.id < q.id := by
  induction rows with
  | nil => exact List.pairwise_singleton _ r
  | cons q rest ih =>
      obtain ⟨hfirst, hrest⟩ := List.pairwise_cons.mp h
      rw [merge]
      split
      · rename_i hlt
        refine List.pairwise_cons.mpr ⟨fun x hx => ?_, h⟩
        rcases List.mem_cons.mp hx with rfl | hx
        · exact hlt
        · exact hlt.trans (hfirst x hx)
      · split
        · rename_i heq
          exact List.pairwise_cons.mpr ⟨fun x hx => heq ▸ hfirst x hx, hrest⟩
        · refine List.pairwise_cons.mpr ⟨fun x hx => ?_, ih hrest⟩
          rcases eq_or_mem_of_merge hx with rfl | hx
          · omega
          · exact hfirst x hx

/-- A merge takes nothing away where an id stands for one row. -/
theorem mem_merge {r x : Row} {rows : List Row} (hids : ∀ q ∈ rows, q.id = r.id → q = r) :
    x ∈ merge r rows ↔ x = r ∨ x ∈ rows := by
  refine ⟨eq_or_mem_of_merge, ?_⟩
  induction rows with
  | nil => simp [merge]
  | cons q rest ih =>
      have hbehind := ih fun x hx => hids x (List.mem_cons_of_mem q hx)
      rw [merge]
      split
      · exact List.mem_cons.mpr
      · split
        · rename_i heq
          rw [hids q List.mem_cons_self heq.symm]
          simp
        · rintro (hx | hx)
          · exact List.mem_cons_of_mem q (hbehind (.inl hx))
          · rcases List.mem_cons.mp hx with rfl | hx
            · exact List.mem_cons_self
            · exact List.mem_cons_of_mem q (hbehind (.inr hx))

/-- Merged rows are in order, and are those of both lists. -/
theorem mergeAll_iff {found more : List Row}
    (hids : ∀ q ∈ found ++ more, ∀ r ∈ found ++ more, q.id = r.id → q = r)
    (horder : found.Pairwise fun p q => p.id < q.id) :
    (mergeAll found more).Pairwise (fun p q => p.id < q.id)
      ∧ ∀ x, x ∈ mergeAll found more ↔ x ∈ found ∨ x ∈ more := by
  induction more generalizing found with
  | nil => exact ⟨horder, by simp [mergeAll]⟩
  | cons r rest ih =>
      have hmerge : ∀ x, x ∈ merge r found ↔ x = r ∨ x ∈ found := fun x =>
        mem_merge fun q hq => hids q (List.mem_append_left _ hq) r (by simp)
      have hsub : ∀ x ∈ merge r found ++ rest, x ∈ found ++ r :: rest := by
        intro x hx
        rw [List.mem_append, hmerge] at hx
        rw [List.mem_append, List.mem_cons]
        tauto
      obtain ⟨hordered, hmem⟩ := ih
        (fun q hq p hp => hids q (hsub q hq) p (hsub p hp)) (pairwise_merge r horder)
      refine ⟨hordered, fun x => (hmem x).trans ?_⟩
      rw [hmerge, List.mem_cons]
      tauto

end Row

/-! ## Rows in turn -/

section

variable {s : Store}

/-- Parts of a table merge into the part of the rows of either. -/
theorem mergeAll_filter (hs : s.Sound) (p q : Row → Bool) :
    Row.mergeAll (s.rows.filter p) (s.rows.filter q) = s.rows.filter fun r => p r || q r := by
  have hsub : ∀ r ∈ s.rows.filter p ++ s.rows.filter q, r ∈ s.rows := by
    intro r hr
    rcases List.mem_append.mp hr with hr | hr <;> exact (List.mem_filter.mp hr).1
  obtain ⟨horder, hmem⟩ := Row.mergeAll_iff
    (fun x hx y hy => hs.eq_of_id (hsub x hx) (hsub y hy)) (hs.ids.filter p)
  refine eq_of_ids horder (hs.ids.filter _) fun r => (hmem r).trans ?_
  simp only [List.mem_filter, Bool.or_eq_true]
  tauto

theorem TextSet.mem_ofList {texts : List String} {text : String} :
    text ∈ TextSet.ofList texts ↔ text ∈ texts := by
  have h : ∀ (texts : List String) (set : TextSet),
      text ∈ texts.foldl (fun set s => TextSet.insert s set) set ↔ text ∈ set ∨ text ∈ texts := by
    intro texts
    induction texts with
    | nil => simp
    | cons first rest ih =>
        intro set
        rw [List.foldl_cons, ih, TextSet.mem_insert, List.mem_cons]
        tauto
  rw [TextSet.ofList, h]
  simp

/-- Reading path by path finds the rows at any of the paths. -/
theorem rowsInTurn_eq (hs : s.Sound) (owner : Nat) (paths : List String) :
    s.rowsInTurn owner paths = s.rowsAtAny owner paths := by
  have hroots : Row.mergeAll [] (if paths.any isRoot then s.childRows owner none else [])
      = s.rows.filter fun r => r.owner = owner && (paths.any isRoot && r.parent.isNone) := by
    have hnone : ([] : List Row) = s.rows.filter fun _ => false := by simp
    split
    · rename_i hroot
      rw [hnone, Store.childRows, mergeAll_filter hs]
      refine List.filter_congr fun r _ => ?_
      cases r.parent <;> simp [hroot]
    · rename_i hroot
      simp [hroot, Row.mergeAll]
  -- the rows found so far are those of the table at any of the targets so far
  have hturn : ∀ (targets : List String) (p : Row → Bool),
      targets.foldl (fun found target => Row.mergeAll found (s.rowsAt owner target))
          (s.rows.filter p)
        = s.rows.filter fun r =>
          p r || (r.owner = owner && targets.any fun t => liesAt t r.path) := by
    intro targets
    induction targets with
    | nil => simp
    | cons t rest ih =>
        intro p
        rw [List.foldl_cons, Store.rowsAt, mergeAll_filter hs, ih]
        refine List.filter_congr fun r _ => ?_
        rw [List.any_cons, Bool.and_or_distrib_left, Bool.or_assoc]
  have htargets : ∀ r : Row, ((TextSet.ofList (paths.filterMap nodePath?)).any
      fun t => liesAt t r.path) = (paths.filterMap nodePath?).any fun t => liesAt t r.path := by
    intro r
    rw [Bool.eq_iff_iff, List.any_eq_true, List.any_eq_true]
    exact exists_congr fun t => and_congr_left' TextSet.mem_ofList
  rw [Store.rowsInTurn, hroots, hturn, Store.rowsAtAny]
  refine List.filter_congr fun r _ => ?_
  rw [htargets, Bool.and_or_distrib_left]

/-! ## Rows asked for -/

/-- Whether a path asks for a row: the root marker for those without a parent,
any other path for those whose path it matches. -/
def Row.IsAskedBy (r : Row) (path : String) : Prop :=
  if isRoot path then r.parent = none
  else ∃ target, normalize path = .ok target ∧ pathMatches r.path target false = true

/-- The canonical form of a path is the root marker if the path is. -/
theorem isRoot_normalize {path target : String} (h : normalize path = .ok target) :
    isRoot target = isRoot path := by
  rw [Path.normalize] at h
  split at h
  · rename_i hroot
    cases h
    exact hroot.symm
  · rename_i hroot
    obtain ⟨q, hq, rfl⟩ := map_eq_ok_iff.mp h
    rw [isRoot_normalized hq, Bool.eq_false_of_not_eq_true hroot]

/-- Which rows a path asks for is a matter of its canonical form. -/
theorem isAskedBy_iff {r : Row} {path : String} :
    r.IsAskedBy path ↔ ∃ target, normalize path = .ok target ∧ r.IsAskedBy target := by
  by_cases hroot : isRoot path = true
  · have hnormalize : normalize path = .ok rootPath := by rw [Path.normalize, if_pos hroot]
    rw [hnormalize, Row.IsAskedBy, if_pos hroot]
    refine ⟨fun h => ⟨_, rfl, ?_⟩, ?_⟩
    · exact h
    · rintro ⟨_, htarget, h⟩
      cases htarget
      exact h
  · rw [Row.IsAskedBy, if_neg hroot]
    refine exists_congr fun target => and_congr_right fun htarget => ?_
    rw [Row.IsAskedBy, isRoot_normalize htarget, if_neg hroot, normalize_normalize htarget]
    simp

/-- Which rows a list of paths asks for is a matter of its canonical forms. -/
theorem exists_isAskedBy_iff {r : Row} {paths : List String} :
    (∃ path ∈ paths, r.IsAskedBy path)
      ↔ ∃ target, (∃ path ∈ paths, normalize path = .ok target) ∧ r.IsAskedBy target := by
  constructor
  · rintro ⟨path, hpath, hasked⟩
    obtain ⟨target, htarget, hasked⟩ := isAskedBy_iff.mp hasked
    exact ⟨target, ⟨path, hpath, htarget⟩, hasked⟩
  · rintro ⟨target, ⟨path, hpath, htarget⟩, hasked⟩
    exact ⟨path, hpath, isAskedBy_iff.mpr ⟨target, htarget, hasked⟩⟩

/-- The rows at any of several paths are those that one of them asks for. -/
theorem mem_rowsAtAny_iff {owner : Nat} {paths : List String} {r : Row} :
    r ∈ s.rowsAtAny owner paths
      ↔ r ∈ s.rows ∧ r.owner = owner ∧ ∃ path ∈ paths, r.IsAskedBy path := by
  have hasked : ∀ path, r.IsAskedBy path ↔ isRoot path = true ∧ r.parent = none
      ∨ ∃ target, nodePath? path = some target ∧ liesAt target r.path = true := by
    intro path
    rw [Row.IsAskedBy, nodePath?]
    cases hroot : isRoot path with
    | true => simp
    | false => simp [toOption_eq_some_iff, liesAt_eq]
  simp only [Store.rowsAtAny, List.mem_filter, Bool.and_eq_true, Bool.or_eq_true, List.any_eq_true,
    decide_eq_true_eq, Option.isNone_iff_eq_none, List.mem_filterMap, hasked]
  refine and_congr_right fun _ => and_congr_right fun _ => ?_
  constructor
  · rintro (⟨⟨path, hpath, hroot⟩, hnone⟩ | ⟨target, ⟨path, hpath, htarget⟩, hlies⟩)
    · exact ⟨path, hpath, .inl ⟨hroot, hnone⟩⟩
    · exact ⟨path, hpath, .inr ⟨target, htarget, hlies⟩⟩
  · rintro ⟨path, hpath, ⟨hroot, hnone⟩ | ⟨target, htarget, hlies⟩⟩
    · exact .inl ⟨⟨path, hpath, hroot⟩, hnone⟩
    · exact .inr ⟨target, ⟨path, hpath, htarget⟩, hlies⟩

/-- Lists of paths that ask for the same rows find the same rows. -/
theorem rowsAtAny_congr {owner : Nat} {paths paths' : List String}
    (h : ∀ r ∈ s.rows, r.owner = owner →
      ((∃ path ∈ paths', r.IsAskedBy path) ↔ ∃ path ∈ paths, r.IsAskedBy path)) :
    s.rowsAtAny owner paths' = s.rowsAtAny owner paths := by
  rw [Store.rowsAtAny, Store.rowsAtAny]
  refine List.filter_congr fun r hr => ?_
  rw [Bool.eq_iff_iff]
  have hmem : ∀ paths, r ∈ s.rowsAtAny owner paths ↔ _ := fun paths => mem_rowsAtAny_iff
  simp only [Store.rowsAtAny, List.mem_filter, hr, true_and] at hmem
  rw [hmem, hmem]
  exact and_congr_right fun howner => h r hr howner

/-- A lookup of one path that finds no row is refused, as long as the path can be read. -/
theorem found_get_eq_error_iff {owner : Owner} {path name missing : String} :
    s.found (.get owner path) = .error (.nodeNotFound name missing)
      ↔ name = owner.name ∧ missing = path ∧ (∃ target, normalize path = .ok target)
        ∧ s.rowsAtAny owner.id [path] = [] := by
  rw [Store.found]
  cases hpath : normalize path with
  | error e =>
      constructor
      · intro h
        cases h
      · rintro ⟨-, -, ⟨target, htarget⟩, -⟩
        cases htarget
  | ok target =>
      cases s.rowsAtAny owner.id [path] with
      | nil =>
          show Except.error (StoreError.nodeNotFound owner.name path) = _ ↔ _
          simp [eq_comm]
      | cons r rest =>
          constructor
          · intro h
            cases h
          · rintro ⟨-, -, -, h⟩
            cases h

/-- The same for the lookup itself, which reads all rows that it finds. -/
theorem get_eq_error_iff (hplain : s.Plain) {owner : Owner} {path name missing : String}
    (fetch : Fetch) :
    s.get owner path fetch = .error (.nodeNotFound name missing)
      ↔ name = owner.name ∧ missing = path ∧ (∃ target, normalize path = .ok target)
        ∧ s.rowsAtAny owner.id [path] = [] := by
  rw [get_eq, ← found_get_eq_error_iff]
  cases hfound : s.found (.get owner path) with
  | error e =>
      show Except.error e = _ ↔ _
      rw [Except.error.injEq, Except.error.injEq]
  | ok rows =>
      obtain ⟨nodes, hnodes, -⟩ := exists_nodes hplain fetch (mem_of_found hfound)
      show s.nodes fetch rows = _ ↔ _
      rw [hnodes]
      simp only [reduceCtorEq]

/-! ## Lookups -/

/-- A lookup that reads the range of each path on its own has the same answer. -/
theorem getInTurn_eq (hs : s.Sound) (owner : Owner) (paths : List String) (fetch : Fetch) :
    s.getInTurn owner paths fetch = s.getMany owner paths fetch := by
  rw [Store.getInTurn, rowsInTurn_eq hs,
    materialize_eq hs fetch (rowsAtAny_subset owner.id paths), Store.getMany]
  split
  · rename_i hnone
    rw [Bool.and_eq_true, Bool.not_eq_true', List.isEmpty_iff] at hnone
    have htargets : paths.filterMap nodePath? = [] :=
      List.eq_nil_iff_forall_not_mem.mpr fun t ht => by
        simpa [hnone.2] using TextSet.mem_ofList.mpr ht
    have hrows : s.rowsAtAny owner.id paths = [] := by
      rw [Store.rowsAtAny, hnone.1, htargets]
      simp
    rw [hrows]
    rfl
  · rfl

end

/-- Whatever operations have been run, as long as stored leaves are scalars and lists of
scalars, a lookup of many paths gives the nodes of the owner's rows that a path asks for, each
once and in the order of the table, and so does a lookup that reads the range of each path on
its own.  The answer is one for all lists of paths with the same canonical forms, and a path
that is malformed or asks for no row adds nothing.  A lookup of one path reports a missing node
exactly if the path can be read and asks for no row. -/
theorem getMany_matching {history : List Operation} (owner : Owner) (paths : List String)
    (fetch : Fetch) (hplain : (Store.empty.after history).Plain) :
    let s := Store.empty.after history
    (∃ rows nodes, s.getMany owner paths fetch = .ok nodes
        ∧ s.nodes fetch rows = .ok nodes ∧ nodes.map Node.path = rows.map Row.path
        ∧ (rows.Pairwise fun q r => q.id < r.id)
        ∧ ∀ r, r ∈ rows ↔ r ∈ s.rows ∧ r.owner = owner.id ∧ ∃ path ∈ paths, r.IsAskedBy path)
      ∧ s.getInTurn owner paths fetch = s.getMany owner paths fetch
      ∧ (∀ paths' : List String,
        (∀ target, (∃ path ∈ paths', normalize path = .ok target)
          ↔ ∃ path ∈ paths, normalize path = .ok target) →
        s.getMany owner paths' fetch = s.getMany owner paths fetch)
      ∧ (∀ path, (∀ target, normalize path ≠ .ok target)
          ∨ (∀ r ∈ s.rows, r.owner = owner.id → ¬r.IsAskedBy path) →
        s.getMany owner (path :: paths) fetch = s.getMany owner paths fetch)
      ∧ ∀ path name missing, s.get owner path fetch = .error (.nodeNotFound name missing)
        ↔ name = owner.name ∧ missing = path ∧ (∃ target, normalize path = .ok target)
          ∧ ∀ r ∈ s.rows, r.owner = owner.id → ¬r.IsAskedBy path := by
  intro s
  have hs : s.Sound := sound_after history
  refine ⟨?_, getInTurn_eq hs owner paths fetch, fun paths' hsame => ?_, fun path hnothing => ?_,
    fun path name missing => ?_⟩
  · obtain ⟨nodes, hnodes, hpaths⟩ :=
      exists_nodes hplain fetch (rowsAtAny_subset owner.id paths)
    exact ⟨_, nodes, hnodes, hnodes, hpaths, hs.ids.filter _, fun r => mem_rowsAtAny_iff⟩
  · rw [Store.getMany, Store.getMany]
    refine congrArg (s.nodes fetch) (rowsAtAny_congr fun r _ _ => ?_)
    rw [exists_isAskedBy_iff, exists_isAskedBy_iff]
    exact exists_congr fun target => and_congr_left' (hsame target)
  · rw [Store.getMany, Store.getMany]
    refine congrArg (s.nodes fetch) (rowsAtAny_congr fun r hr howner => ?_)
    have hnot : ¬r.IsAskedBy path := by
      rcases hnothing with hmalformed | hmissing
      · intro hasked
        obtain ⟨target, htarget, -⟩ := isAskedBy_iff.mp hasked
        exact hmalformed target htarget
      · exact hmissing r hr howner
    simp [hnot]
  · rw [get_eq_error_iff (s := s) hplain, List.eq_nil_iff_forall_not_mem]
    simp only [mem_rowsAtAny_iff, List.mem_singleton, exists_eq_left, not_and]

/-- A list with a bracket and a slash in its keys, beside nodes whose names
start with that of the list.  It is asked for twice, and so is one of its
elements in another spelling, beside a path that is malformed. -/
theorem getMany_matching_of_overlap :
    let elements : List Node := ["/l[@k='[x]']", "/l[@k='/y']"].map Node.leafless
    let owner : Owner := ⟨1, 1, "d", "o"⟩
    let request := Operation.request .readWrite
    let history := [request (.createDataspace "d"), request (.createOwner ⟨1, "d"⟩ "o"),
      request (.write owner (.store (elements ++ [.leafless "/lx", .leafless "/l-x"])))]
    let paths := ["/l[ @k = \"/y\" ]", "/l", "/l"]
    let s := Store.empty.after history
    s.Plain
      ∧ (∃ nodes, s.getMany owner ("//[" :: paths) .all = .ok nodes
        ∧ s.getMany owner paths.reverse .all = .ok nodes
        ∧ nodes.map Node.path = elements.map Node.path)
      ∧ s.get owner "/none" .all = .error (.nodeNotFound "o" "/none") := by
  intro elements owner request history paths s
  obtain ⟨hplain, hnone, hfound⟩ :
      s.Plain ∧ (s.rowsAtAny 1 ["/none"]).map Row.path = []
        ∧ (s.rowsAtAny 1 paths).map Row.path = elements.map Node.path := by
    decide +kernel
  have hmalformed : (normalize "//[").toOption = none := by decide +kernel
  have htarget : (normalize "/none").toOption = some "/none" := by decide +kernel
  obtain ⟨⟨rows, nodes, hnodes, -, hpaths, horder, hmem⟩, -, hsame, hnothing, hmissing⟩ :=
    getMany_matching owner paths .all hplain
  have hrows : rows = s.rowsAtAny 1 paths :=
    eq_of_ids horder ((sound_after history).ids.filter _) fun r =>
      (hmem r).trans mem_rowsAtAny_iff.symm
  have hskipped := hnothing "//[" (.inl fun target h => by
    rw [toOption_eq_some_iff.mpr h] at hmalformed
    cases hmalformed)
  have hreversed := hsame paths.reverse fun target => by simp only [List.mem_reverse]
  refine ⟨hplain, ⟨nodes, hskipped.trans hnodes, hreversed.trans hnodes, ?_⟩,
    (hmissing "/none" "o" "/none").mpr ⟨rfl, rfl, ⟨_, toOption_eq_some_iff.mp htarget⟩, ?_⟩⟩
  · rw [hpaths, hrows, hfound]
  · intro r hr howner hasked
    have hmem : r ∈ s.rowsAtAny 1 ["/none"] :=
      mem_rowsAtAny_iff.mpr ⟨hr, howner, _, List.mem_singleton_self _, hasked⟩
    rw [List.map_eq_nil_iff.mp hnone] at hmem
    cases hmem

end DataTree
