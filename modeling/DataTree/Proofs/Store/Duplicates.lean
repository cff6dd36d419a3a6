import DataTree.Proofs.Store.Appended
import DataTree.Proofs.Store.Refusal
import DataTree.Store.Operation

/-!
# Paths that are taken

An insertion is refused if a path of the trees it names is stored already, or
comes twice.  Each tree is inserted or refused by itself when its turn comes,
and what is reported of a refused tree is the path at which its insertion
stopped.  So every tree with a stored path is reported by one of its paths,
and nothing is reported that is neither stored nor repeated; but further such
paths of a tree stay unnamed.

## Main definitions

* `Write.insertion?` — the nodes that a write inserts, if it only inserts.
* `refusals` — the path at which each of the refused trees is refused.
* `Offends` — whether a path is one of the trees, and stored or repeated.

## Main results

* `skipped_inserts` — the insertions that are skipped, and where.
* `mem_refusals_of_offends` — where the refusals name all that offends.
* `duplicates_reported` — what the report of an insertion names.
-/

namespace DataTree

open DataTree.Path

/-! ## Trees that are refused -/

/-- The paths at which trees are refused, each tree given by its paths in
order: a tree without a taken path takes its paths. -/
def refusals (taken : List String) : List (List String) → List String
  | [] => []
  | tree :: rest =>
    match firstTaken taken tree with
    | some path => path :: refusals taken rest
    | none => refusals (taken ++ tree) rest

/-- Whether a path is one of the trees, and was taken before or is repeated. -/
def Offends (taken : List String) (trees : List (List String)) (path : String) : Prop :=
  path ∈ trees.flatten ∧ (path ∈ taken ∨ 2 ≤ trees.flatten.count path)

instance (taken : List String) (trees : List (List String)) (path : String) :
    Decidable (Offends taken trees path) :=
  inferInstanceAs (Decidable (_ ∧ _))

/-- The first taken path is one of the paths, and taken or repeated. -/
theorem firstTaken_eq_some {taken paths : List String} {path : String}
    (h : firstTaken taken paths = some path) :
    path ∈ paths ∧ (path ∈ taken ∨ 2 ≤ paths.count path) := by
  induction paths generalizing taken with
  | nil => cases h
  | cons p rest ih =>
      rw [firstTaken] at h
      by_cases htaken : p ∈ taken
      · rw [if_pos htaken] at h
        obtain rfl := Option.some.inj h
        exact ⟨List.mem_cons_self, .inl htaken⟩
      · rw [if_neg htaken] at h
        obtain ⟨hmem, hfound⟩ := ih h
        refine ⟨List.mem_cons_of_mem p hmem, ?_⟩
        have hcount : rest.count path ≤ (p :: rest).count path := List.count_le_count_cons
        rcases hfound with hfound | hfound
        · rcases List.mem_append.mp hfound with hfound | hfound
          · exact .inl hfound
          · obtain rfl := List.mem_singleton.mp hfound
            have hpos := List.count_pos_iff.mpr hmem
            rw [List.count_cons_self]
            omega
        · exact .inr (Nat.le_trans hfound hcount)

section

variable {taken : List String} {trees : List (List String)} {path : String}

theorem refusals_cons_of_refused {tree : List String} (h : firstTaken taken tree = some path)
    (rest : List (List String)) :
    refusals taken (tree :: rest) = path :: refusals taken rest := by
  rw [refusals, h]

theorem refusals_cons_of_free {tree : List String} (h : firstTaken taken tree = none)
    (rest : List (List String)) :
    refusals taken (tree :: rest) = refusals (taken ++ tree) rest := by
  rw [refusals, h]

/-- Whatever a tree is refused for offends. -/
theorem offends_of_mem_refusals (h : path ∈ refusals taken trees) : Offends taken trees path := by
  induction trees generalizing taken with
  | nil => cases h
  | cons tree rest ih =>
      have hcount : rest.flatten.count path ≤ (tree :: rest).flatten.count path := by
        rw [List.flatten_cons, List.count_append]
        omega
      have hlater : Offends taken rest path → Offends taken (tree :: rest) path := fun hoffends =>
        ⟨List.mem_append_right tree hoffends.1, hoffends.2.imp_right fun h => Nat.le_trans h hcount⟩
      cases hfirst : firstTaken taken tree with
      | some q =>
          rw [refusals_cons_of_refused hfirst] at h
          rcases List.mem_cons.mp h with rfl | h
          · obtain ⟨hmem, hfound⟩ := firstTaken_eq_some hfirst
            refine ⟨List.mem_append_left _ hmem, hfound.imp_right fun h => ?_⟩
            rw [List.flatten_cons, List.count_append]
            omega
          · exact hlater (ih h)
      | none =>
          rw [refusals_cons_of_free hfirst] at h
          obtain ⟨hmem, hfound⟩ := ih h
          rcases hfound with hfound | hfound
          · rcases List.mem_append.mp hfound with hfound | hfound
            · exact hlater ⟨hmem, .inl hfound⟩
            · -- the path is one of this tree and of a later one
              have hhere := List.count_pos_iff.mpr hfound
              have hthere := List.count_pos_iff.mpr hmem
              refine ⟨List.mem_append_right tree hmem, .inr ?_⟩
              rw [List.flatten_cons, List.count_append]
              omega
          · exact hlater ⟨hmem, .inr hfound⟩

/-- A tree that has a taken path, or one path twice, is refused for one of its
paths. -/
theorem exists_refusal {tree : List String} (htree : tree ∈ trees)
    (h : (∃ path ∈ tree, path ∈ taken) ∨ ¬tree.Nodup) :
    ∃ path ∈ tree, path ∈ refusals taken trees := by
  induction trees generalizing taken with
  | nil => cases htree
  | cons first rest ih =>
      cases hfirst : firstTaken taken first with
      | some q =>
          rw [refusals_cons_of_refused hfirst]
          rcases List.mem_cons.mp htree with rfl | htree
          · exact ⟨q, (firstTaken_eq_some hfirst).1, List.mem_cons_self⟩
          · obtain ⟨path, hmem, hpath⟩ := ih htree h
            exact ⟨path, hmem, List.mem_cons_of_mem q hpath⟩
      | none =>
          rw [refusals_cons_of_free hfirst]
          rcases List.mem_cons.mp htree with rfl | htree
          · obtain ⟨hnodup, hfree⟩ := firstTaken_eq_none_iff.mp hfirst
            rcases h with ⟨path, hmem, hpath⟩ | h
            · exact absurd hpath (hfree path hmem)
            · exact absurd hnodup h
          · exact ih htree (h.imp_left fun ⟨path, hmem, hpath⟩ =>
              ⟨path, hmem, List.mem_append_left first hpath⟩)

/-! ### Trees refused for one path only -/

section

variable {O : String → Prop} (hO : ∀ p ∈ refusals taken trees, O p)
  (hone : ∀ tree ∈ trees, ∀ p ∈ tree, ∀ q ∈ tree, O p → O q → p = q)

include hO hone

theorem mem_refusals_of_taken (hpath : O path) (htaken : path ∈ taken)
    (hmem : path ∈ trees.flatten) : path ∈ refusals taken trees := by
  obtain ⟨tree, htree, hmem⟩ := List.mem_flatten.mp hmem
  obtain ⟨q, hq, hrefused⟩ := exists_refusal htree (.inl ⟨path, hmem, htaken⟩)
  rw [hone tree htree path hmem q hq hpath (hO q hrefused)]
  exact hrefused

theorem mem_refusals_of_repeated (hpath : O path) (hcount : 2 ≤ trees.flatten.count path) :
    path ∈ refusals taken trees := by
  induction trees generalizing taken with
  | nil => simp at hcount
  | cons first rest ih =>
      have hrest := fun tree htree => hone tree (List.mem_cons_of_mem first htree)
      rw [List.flatten_cons, List.count_append] at hcount
      cases hfirst : firstTaken taken first with
      | some q =>
          rw [refusals_cons_of_refused hfirst] at hO ⊢
          by_cases hmem : path ∈ first
          · have hq := (firstTaken_eq_some hfirst).1
            rw [hone first List.mem_cons_self path hmem q hq hpath (hO q List.mem_cons_self)]
            exact List.mem_cons_self
          · rw [List.count_eq_zero_of_not_mem hmem, Nat.zero_add] at hcount
            exact List.mem_cons_of_mem q
              (ih (fun p hp => hO p (List.mem_cons_of_mem q hp)) hrest hcount)
      | none =>
          rw [refusals_cons_of_free hfirst] at hO ⊢
          by_cases hmem : path ∈ first
          · -- the tree has taken the path, and a later one has it, too
            have hhere := List.nodup_iff_count_le_one.mp (firstTaken_eq_none_iff.mp hfirst).1 path
            have hthere : path ∈ rest.flatten := List.count_pos_iff.mp (by omega)
            exact mem_refusals_of_taken hO hrest hpath (List.mem_append_right taken hmem) hthere
          · rw [List.count_eq_zero_of_not_mem hmem, Nat.zero_add] at hcount
            exact ih hO hrest hcount

end

/-- If at most one path of each tree offends, the refusals name all that do. -/
theorem mem_refusals_of_offends
    (hone : ∀ tree ∈ trees, ∀ p ∈ tree, ∀ q ∈ tree,
      Offends taken trees p → Offends taken trees q → p = q)
    (h : Offends taken trees path) : path ∈ refusals taken trees := by
  have hO : ∀ p ∈ refusals taken trees, Offends taken trees p :=
    fun p hp => offends_of_mem_refusals hp
  rcases h.2 with htaken | hcount
  · exact mem_refusals_of_taken hO hone h htaken h.1
  · exact mem_refusals_of_repeated hO hone h hcount

end

/-! ## Insertions that are skipped -/

/-- Insertions are skipped where their trees are refused. -/
theorem skipped_inserts (owner : Nat) (parent : Option Nat) (ds : List Draft) (s : Store) :
    (inTurn owner (ds.map (.insert parent)) s).skipped
      = (refusals (s.pathsOf owner) (ds.map Draft.paths)).map fun path => (path, .duplicate) := by
  induction ds generalizing s with
  | nil => rfl
  | cons d rest ih =>
      rw [List.map_cons, List.map_cons]
      cases hfirst : firstTaken (s.pathsOf owner) d.paths with
      | some path =>
          have hconflict : (Edit.insert parent d).conflict? owner s = some (path, .duplicate) := by
            rw [Edit.conflict?, hfirst]
            rfl
          rw [inTurn_cons_of_conflict hconflict, refusals_cons_of_refused hfirst, ih]
          rfl
      | none =>
          have hpaths : (s.grow (d.rows owner parent (s.lastRow + 1))).pathsOf owner
              = s.pathsOf owner ++ d.paths := by
            rw [Store.pathsOf_grow fun r hr => Draft.owner_of_mem_rows d hr, Draft.map_path_rows]
          rw [inTurn_cons_of_free (Edit.conflict?_insert_eq_none_iff.mpr hfirst),
            refusals_cons_of_free hfirst, ← hpaths]
          exact ih _

/-- What is skipped as a duplicate is reported as one. -/
theorem mem_skippedPaths_iff {paths : List String} {path : String} :
    path ∈ skippedPaths .duplicate (Keyed.ofList (paths.map fun p => (p, .duplicate)))
      ↔ path ∈ paths := by
  have hkind : ∀ {e : String × Conflict}, e ∈ paths.map (fun p => (p, Conflict.duplicate)) →
      e.1 ∈ paths ∧ e.2 = .duplicate := by
    intro e he
    obtain ⟨p, hp, rfl⟩ := List.mem_map.mp he
    exact ⟨hp, rfl⟩
  rw [skippedPaths, List.mem_map]
  constructor
  · rintro ⟨e, he, rfl⟩
    have hmem := Keyed.mem_insertAll (List.mem_filter.mp he).1
    exact (hkind (hmem.resolve_left List.not_mem_nil)).1
  · intro hpath
    have hentry : (path, Conflict.duplicate) ∈ paths.map fun p => (p, Conflict.duplicate) :=
      List.mem_map.mpr ⟨path, hpath, rfl⟩
    obtain ⟨kind, hlast⟩ := Keyed.exists_lastAt hentry
    obtain rfl : kind = .duplicate := (hkind (Keyed.mem_of_lastAt hlast)).2
    rw [← Keyed.find?_ofList, (Keyed.sorted_ofList _).find?_eq_some_iff] at hlast
    exact ⟨_, List.mem_filter.mpr ⟨hlast, decide_eq_true rfl⟩, rfl⟩

theorem skippedPaths_of_answer {owner : Owner} {summary : Summary} {skipped : Keyed Conflict}
    {name : String} {paths : TextSet}
    (h : (Applied.of summary skipped).answer owner = .error (.alreadyStored name paths)) :
    name = owner.name ∧ paths = skippedPaths .duplicate skipped := by
  rw [Applied.of] at h
  split at h
  · cases h
  · rw [Applied.answer] at h
    split at h
    · cases h
    · cases h
      exact ⟨rfl, rfl⟩

/-! ## Writes that insert -/

/-- The nodes that a write inserts, if it only inserts. -/
def Write.insertion? : Write → Option (List Node)
  | .store nodes | .add _ nodes | .addList _ nodes => some nodes
  | _ => none

/-- The paths of the trees that a list of nodes names, in canonical form. -/
def Node.treePaths (nodes : List Node) : List (List String) :=
  (Node.listed nodes).map fun n => n.paths.map canonicalPath

theorem map_paths_of_drafted {ns : List Node} {ds : List Draft}
    (h : List.Forall₂ Node.Drafted ns ds) :
    ds.map Draft.paths = ns.map fun n => n.paths.map canonicalPath := by
  induction h with
  | nil => rfl
  | cons hd _ ih => rw [List.map_cons, List.map_cons, hd.paths, ih]

section

variable {s : Store} {access : Access} {owner : Owner} {w : Write} {nodes : List Node}

theorem plan_of_insertion (hw : w.insertion? = some nodes) {change : Change}
    (hplan : w.plan s owner = .ok change) :
    ∃ parent ds, change = .edits (ds.map (.insert parent))
      ∧ List.Forall₂ Node.Drafted (Node.listed nodes) ds := by
  have hadd : ∀ {parent : String}, planAdd s owner parent nodes = .ok change →
      ∃ parent ds, change = .edits (ds.map (.insert parent))
        ∧ List.Forall₂ Node.Drafted (Node.listed nodes) ds := by
    intro parent h
    obtain ⟨⟨id, path⟩, -, h⟩ := bind_eq_ok_iff.mp h
    obtain ⟨ds, hds, h⟩ := bind_eq_ok_iff.mp h
    cases h
    exact ⟨id, ds, rfl, forall₂_of_draftsUnder hds⟩
  cases w with
  | store given =>
      cases hw
      obtain ⟨ds, hds, rfl⟩ := map_eq_ok_iff.mp hplan
      exact ⟨none, ds, rfl, forall₂_of_draftsOfAll hds⟩
  | add parent given =>
      cases hw
      exact hadd hplan
  | addList parent given =>
      cases hw
      rw [Write.plan, planAddList] at hplan
      split at hplan
      · cases hplan
      · exact hadd hplan
  | _ => cases hw

/-- What an insertion that is refused for taken paths reports are the paths at
which its trees are refused. -/
theorem mem_of_alreadyStored (hw : w.insertion? = some nodes) {name : String} {paths : TextSet}
    (h : (s.write access owner w).2 = .error (.alreadyStored name paths)) :
    name = owner.name
      ∧ ∀ path, path ∈ paths ↔ path ∈ refusals (s.pathsOf owner.id) (Node.treePaths nodes) := by
  rw [Store.write] at h
  split at h
  · rename_i e hplan
    have hearly := calm_plan s owner w e hplan
    rw [Except.error.inj h] at hearly
    cases hearly
  · rename_i change hplan
    split at h
    · cases h
    · obtain ⟨parent, ds, rfl, hds⟩ := plan_of_insertion hw hplan
      have hanswer : Change.answer owner
          (applyWithFallback owner.id (ds.map (.insert parent)) s).2
            = .error (.alreadyStored name paths) := h
      have hunfaulted : Unfaulted owner.id (inOrder (ds.map (.insert parent))) s := by
        by_contra hfaulted
        obtain ⟨fault, hfault⟩ := exists_firstFault hfaulted
        rw [applyWithFallback_of_faulted hfault] at hanswer
        cases hanswer
      rw [applyWithFallback_eq hunfaulted, inOrder_inserts, skipped_inserts,
        map_paths_of_drafted hds] at hanswer
      obtain ⟨hname, rfl⟩ := skippedPaths_of_answer hanswer
      exact ⟨hname, fun path => mem_skippedPaths_iff⟩

/-- An insertion that is refused for taken paths reports for each refused tree
the path at which it is refused.  All that is reported was stored before the
write or is repeated in it, and each tree that has a stored path, or one path
twice, is reported by one of its own.  If no tree has two paths that were
stored or are repeated, all of these are reported. -/
theorem duplicates_reported (hw : w.insertion? = some nodes) {name : String} {paths : TextSet}
    (h : (s.write access owner w).2 = .error (.alreadyStored name paths)) :
    let taken := s.pathsOf owner.id
    let trees := Node.treePaths nodes
    name = owner.name
      ∧ (∀ path, path ∈ paths ↔ path ∈ refusals taken trees)
      ∧ (∀ path ∈ paths, Offends taken trees path)
      ∧ (∀ tree ∈ trees, ((∃ path ∈ tree, path ∈ taken) ∨ ¬tree.Nodup) →
          ∃ path ∈ tree, path ∈ paths)
      ∧ ((∀ tree ∈ trees, ∀ p ∈ tree, ∀ q ∈ tree,
            Offends taken trees p → Offends taken trees q → p = q) →
          ∀ path, path ∈ paths ↔ Offends taken trees path) := by
  intro taken trees
  obtain ⟨hname, hpaths⟩ := mem_of_alreadyStored hw h
  have hoffends : ∀ path ∈ paths, Offends taken trees path :=
    fun path hpath => offends_of_mem_refusals ((hpaths path).mp hpath)
  refine ⟨hname, hpaths, hoffends, fun tree htree hfound => ?_, fun hone path => ?_⟩
  · obtain ⟨path, hmem, hrefused⟩ := exists_refusal htree hfound
    exact ⟨path, hmem, (hpaths path).mpr hrefused⟩
  · exact ⟨hoffends path, fun hpath => (hpaths path).mpr (mem_refusals_of_offends hone hpath)⟩

/-- A tree whose root is stored below another, and a new tree given twice. -/
theorem duplicates_reported_of_two_trees :
    let owner : Owner := ⟨1, 1, "d", "o"⟩
    let inner : Node := .leafless "/a/b[@k='1']"
    let request := Operation.request .readWrite
    let s := Store.empty.after [request (.createDataspace "d"),
      request (.createOwner ⟨1, "d"⟩ "o"),
      request (.write owner (.store [.mk "/a" [] [(inner.path, inner)]]))]
    let below : Node := .leafless "/a/b[@k=\"1\"]/c"
    let nodes := [.leafless "/x", .mk "/a/b[@k=\"1\"]" [] [(below.path, below)], .leafless "/x"]
    let trees := Node.treePaths nodes
    (s.write .readWrite owner (.store nodes)).2 = .error (.alreadyStored "o" ["/a/b[@k='1']", "/x"])
      ∧ (∀ tree ∈ trees, ∀ p ∈ tree, ∀ q ∈ tree,
          Offends (s.pathsOf 1) trees p → Offends (s.pathsOf 1) trees q → p = q)
      ∧ ∀ path, path ∈ ["/a/b[@k='1']", "/x"] ↔ Offends (s.pathsOf 1) trees path := by
  intro owner inner request s below nodes trees
  have hanswer : (s.write .readWrite owner (.store nodes)).2
      = .error (.alreadyStored "o" ["/a/b[@k='1']", "/x"]) := by
    decide +kernel
  have hone : ∀ tree ∈ trees, ∀ p ∈ tree, ∀ q ∈ tree,
      Offends (s.pathsOf 1) trees p → Offends (s.pathsOf 1) trees q → p = q := by
    decide +kernel
  exact ⟨hanswer, hone, (duplicates_reported rfl hanswer).2.2.2.2 hone⟩

/-- A tree stored again: its root is reported, and the node below it, which is
stored as well, is not. -/
theorem duplicate_unreported :
    let owner : Owner := ⟨1, 1, "d", "o"⟩
    let child : Node := .leafless "/a/b"
    let tree : Node := .mk "/a" [] [(child.path, child)]
    ∃ s, Reachable s
      ∧ (s.write .readWrite owner (.store [tree])).2 = .error (.alreadyStored "o" ["/a"])
      ∧ Offends (s.pathsOf 1) (Node.treePaths [tree]) "/a/b" := by
  intro owner child tree
  have hreach := Reachable.empty
    |>.step .readWrite (.createDataspace "d")
    |>.step .readWrite (.createOwner ⟨1, "d"⟩ "o")
    |>.step .readWrite (.write owner (.store [tree]))
  exact ⟨_, hreach, by decide +kernel, by decide +kernel⟩

end

end DataTree
