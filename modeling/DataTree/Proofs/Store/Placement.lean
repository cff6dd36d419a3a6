import DataTree.Proofs.Store.Appended
import DataTree.Proofs.Store.Statements
import DataTree.Proofs.Store.Validity

/-!
# Lookups and queries of one path

A lookup finds the rows of a path by the range of their texts and a match, a
query by the match and the row of their parent.  The range only leaves out
what does not match.  The parent does not: rows may be stored away from the
parent that their path suggests, at the top or several steps below a row, and
then a query misses what a lookup finds.

## Main definitions

* `Path.Query.isPlace` — whether a query asks for the nodes at a path, and for
  nothing else of them.

## Main results

* `liesAt_eq` — the range of a lookup leaves out nothing that matches.
* `query_eq_getMany_iff` — when lookup and query agree.
-/

namespace DataTree

open DataTree.Path

/-! ## Paths of places -/

namespace Path.Query

/-- Whether a query asks for the nodes at one path and for nothing else of
them: the last step has no predicate, and there is no axis. -/
def isPlace (q : Query) : Bool :=
  q.isAbsolute && q.ancestor.isNone && q.leafText.isNone && q.contains.isNone
    && q.conditions.isNone

theorem isPlace_iff {q : Query} :
    q.isPlace = true ↔ q.anchor = .absolute ∧ q.ancestor = none ∧ q.leafText = none
      ∧ q.contains = none ∧ q.conditions = none := by
  simp only [isPlace, isAbsolute, Bool.and_eq_true, decide_eq_true_eq, Option.isNone_iff_eq_none,
    and_assoc]

example : ["/a/l", "/a/l[@k='1']", "//l"].map (fun path =>
    (Query.parse path).toOption.map Query.isPlace) = [some true, some false, some false] := by
  decide +kernel

section

variable {q : Query} (h : q.isPlace = true)

include h

/-- Nothing follows the address of such a query. -/
theorem normalized_of_isPlace : q.normalized = q.address := by
  obtain ⟨-, haxis, htext, hcontains, hconditions⟩ := isPlace_iff.mp h
  rw [normalized, address, chars, suffixChars, haxis, htext, hcontains, hconditions]
  simp

theorem descendantName_of_isPlace : q.descendantName = none := by
  rw [descendantName, (isPlace_iff.mp h).1]

theorem readsLeaves_of_isPlace : q.readsLeaves = false := by
  obtain ⟨-, -, htext, hcontains, hconditions⟩ := isPlace_iff.mp h
  rw [readsLeaves, htext, hcontains, hconditions]
  rfl

theorem selector_of_isPlace : q.selector = .ok ⟨q, none⟩ := by
  obtain ⟨-, haxis, -, -, hconditions⟩ := isPlace_iff.mp h
  have hchecked : checkConditions q.conditionList = .ok () := by
    rw [conditionList, hconditions]
    rfl
  have hnone : q.ancestorQuery = none := by
    rw [ancestorQuery, ancestorName, haxis]
    rfl
  rw [selector, hchecked, hnone]
  rfl

end

end Path.Query

/-! ## The range of a lookup -/

/-- Whatever matches an address lies in the range of its lookup. -/
theorem liesAt_eq (target path : String) : liesAt target path = pathMatches path target false := by
  rw [liesAt, Bool.eq_iff_iff]
  simp only [Bool.or_eq_true, Bool.and_eq_true, decide_eq_true_eq]
  constructor
  · rintro (rfl | ⟨-, h⟩)
    · exact matchesAddress_iff.mpr (.inl rfl)
    · exact h
  · intro h
    rcases matchesAddress_iff.mp h with hsame | ⟨key, hkey, happend⟩
    · exact .inl (String.toList_inj.mp hsame)
    · obtain ⟨cs, rfl⟩ : ∃ cs, key = '[' :: '@' :: cs := by
        unfold isKeyPredicate at hkey
        split at hkey
        · exact ⟨_, rfl⟩
        · cases hkey
      -- a key predicate starts with `[@`, and nothing that does reaches `[A`
      have hlow : ¬target.toList ++ '[' :: '@' :: cs < target.toList ++ "[@".toList :=
        List.append_left_le (List.prefix_append ['[', '@'] cs).le
      have hhigh : '[' :: '@' :: cs < "[A".toList :=
        List.cons_lt_cons_iff.mpr (.inr ⟨rfl, List.cons_lt_cons_iff.mpr (.inl (by decide))⟩)
      refine .inr ⟨⟨String.not_lt.mp fun hless => ?_, ?_⟩, h⟩
      · rw [String.lt_iff, happend, String.toList_append] at hless
        exact hlow hless
      · rw [String.lt_iff, happend, String.toList_append]
        exact List.append_left_lt hhigh

/-! ## Rows of a place -/

section Rows

variable {s : Store} {path : String} {q : Query} (hpath : Query.parse path = .ok q)
  (hplace : q.isPlace = true)

include hpath hplace

/-- A lookup finds the rows that match. -/
theorem rowsAtAny_of_isPlace (s : Store) (owner : Nat) :
    s.rowsAtAny owner [path]
      = s.rows.filter fun r => r.owner = owner && pathMatches r.path q.address false := by
  have hroot := isRoot_of_parse hpath
  have htarget : nodePath? path = some q.address := by
    rw [nodePath?, hroot, normalize_of_parse hpath, Query.normalized_of_isPlace hplace]
    rfl
  rw [Store.rowsAtAny]
  refine List.filter_congr fun r _ => ?_
  simp [hroot, htarget, liesAt_eq]

/-- A query finds those of them whose parent is the row one step above. -/
theorem select_of_isPlace (s : Store) (owner : Nat) :
    (readSelector path >>= s.select (.owner owner))
      = .ok ((s.rowsAtAny owner [path]).filter (hasParentAt s (.owner owner) q.parentAddress)) := by
  have hread : readSelector path = .ok ⟨q, none⟩ := by
    rw [readSelector, hpath]
    show (q.selector).mapError _ = _
    rw [Query.selector_of_isPlace hplace]
    rfl
  have hfits : (⟨q, none⟩ : Selector).fits (.owner owner) = true := by
    refine fits_none_of_length ?_ _
    rw [Query.conditionList, (Query.isPlace_iff.mp hplace).2.2.2.2]
    exact Nat.zero_le 980
  rw [hread, rowsAtAny_of_isPlace hpath hplace, List.filter_filter]
  show s.select (.owner owner) ⟨q, none⟩ = _
  rw [Store.select_of_fits s hfits]
  show (filterByLeaves q _ >>= pure) = _
  rw [filterByLeaves, Query.readsLeaves_of_isPlace hplace]
  refine congrArg Except.ok (List.filter_congr fun r _ => ?_)
  rw [isNamed, Query.descendantName_of_isPlace hplace, Scope.covers]
  cases decide (r.owner = owner) <;> simp [Bool.and_comm]

theorem query_of_isPlace (s : Store) (owner : Owner) (fetch : Fetch) :
    s.query owner path fetch = s.nodes fetch ((s.rowsAtAny owner.id [path]).filter
      (hasParentAt s (.owner owner.id) q.parentAddress)) := by
  have hselect := select_of_isPlace hpath hplace s owner.id
  rw [Store.query, if_neg (by simp [isRoot_of_parse hpath])]
  cases hread : readSelector path with
  | error e =>
      rw [hread] at hselect
      cases hselect
  | ok selector =>
      rw [hread] at hselect
      show (s.select (.owner owner.id) selector >>= s.nodes fetch) = _
      rw [show s.select (.owner owner.id) selector = _ from hselect]
      rfl

end Rows

/-! ## Lookups against queries -/

/-- Whatever operations have been run, as long as stored leaves are scalars and
lists of scalars, a lookup and a query of the path of a place succeed to every
depth.  The query finds the nodes of the lookup in their order, except those
that are not stored under the row one step above: the two agree exactly if all
rows of the lookup are. -/
theorem query_eq_getMany_iff {history : List Operation} {path : String} {q : Query}
    (owner : Owner) (fetch : Fetch) (hplain : (Store.empty.after history).Plain)
    (hpath : Query.parse path = .ok q) (hplace : q.isPlace = true) :
    let s := Store.empty.after history
    let rows := s.rowsAtAny owner.id [path]
    let inPlace := hasParentAt s (.owner owner.id) q.parentAddress
    ∃ got found, s.getMany owner [path] fetch = .ok got
      ∧ s.query owner path fetch = .ok found
      ∧ got.map Node.path = rows.map Row.path
      ∧ found.map Node.path = (rows.filter inPlace).map Row.path
      ∧ found.Sublist got
      ∧ (found = got ↔ ∀ r ∈ rows, inPlace r = true) := by
  intro s rows inPlace
  have hread : ∀ r ∈ rows, s.node fetch r = .ok ((s.node fetch r).toOption.getD default) := by
    intro r hr
    obtain ⟨n, hnode⟩ := hplain.exists_node fetch (List.mem_of_mem_filter hr)
    rw [hnode]
    rfl
  have hinPlace := fun r hr => hread r (List.mem_of_mem_filter (p := inPlace) hr)
  have hpaths : ∀ found : List Row, (∀ r ∈ found, r ∈ rows) →
      (found.map fun r => (s.node fetch r).toOption.getD default).map Node.path
        = found.map Row.path := by
    intro found hfound
    rw [List.map_map]
    exact List.map_congr_left fun r hr => path_of_node (hread r (hfound r hr))
  have hquery := query_of_isPlace hpath hplace s owner fetch
  refine ⟨_, _, mapM_eq_ok hread, hquery.trans (mapM_eq_ok hinPlace), hpaths rows fun r hr => hr,
    hpaths _ fun r hr => List.mem_of_mem_filter hr, List.filter_sublist.map _, ?_⟩
  constructor
  · intro hsame
    have hlength := congrArg List.length hsame
    rw [List.length_map, List.length_map] at hlength
    exact List.length_filter_eq_length_iff.mp hlength
  · intro hall
    show ((rows.filter inPlace).map _) = _
    rw [List.filter_eq_self.mpr hall]

/-- Two elements of a list, one of them given below its parent and the other one
at the top. -/
theorem query_eq_getMany_iff_of_list_elements :
    let element : Node := .leafless "/a/b[@k=1]"
    let tree : Node := .mk "/a" [] [(element.path, element)]
    let owner : Owner := ⟨1, 1, "d", "o"⟩
    let history : List Operation := [.request .readWrite (.createDataspace "d"),
      .request .readWrite (.createOwner ⟨1, "d"⟩ "o"),
      .request .readWrite (.write owner (.store [tree, .leafless "/a/b[@k=2]"]))]
    let s := Store.empty.after history
    s.Plain ∧ ∃ got found, s.getMany owner ["/a/b"] .all = .ok got
      ∧ got.map Node.path = ["/a/b[@k=1]", "/a/b[@k=2]"]
      ∧ s.query owner "/a/b" .all = .ok found
      ∧ found.map Node.path = ["/a/b[@k=1]"]
      ∧ found.Sublist got := by
  intro element tree owner history s
  let q : Query := ⟨.absolute, [⟨"a", []⟩], "b", .filtered none none, none⟩
  have hplain : s.Plain := by decide +kernel
  have hread : (Query.parse "/a/b").toOption = some q := by decide +kernel
  have hrows : (s.rowsAtAny 1 ["/a/b"]).map Row.path = ["/a/b[@k=1]", "/a/b[@k=2]"] := by
    decide +kernel
  have hinPlace : ((s.rowsAtAny 1 ["/a/b"]).filter
      (hasParentAt s (.owner 1) q.parentAddress)).map Row.path = ["/a/b[@k=1]"] := by
    decide +kernel
  obtain ⟨got, found, hgot, hfound, hgotPaths, hfoundPaths, hsub, -⟩ :=
    query_eq_getMany_iff owner .all hplain (toOption_eq_some_iff.mp hread) rfl
  exact ⟨hplain, got, found, hgot, hgotPaths.trans hrows, hfound, hfoundPaths.trans hinPlace,
    hsub⟩

/-- A node given at the top with a path of two steps is found by a lookup of its
path only: for the query it would have to hang under a row at `/a`. -/
theorem query_ne_getMany_of_unplaced :
    let owner : Owner := ⟨1, 1, "d", "o"⟩
    let history : List Operation := [.request .readWrite (.createDataspace "d"),
      .request .readWrite (.createOwner ⟨1, "d"⟩ "o"),
      .request .readWrite (.write owner (.store [.leafless "/a/b"]))]
    let s := Store.empty.after history
    s.Plain ∧ (Query.parse "/a/b").toOption.any Query.isPlace = true
      ∧ (s.getMany owner ["/a/b"] .nodeOnly).toOption.map (List.map Node.path) = some ["/a/b"]
      ∧ (s.query owner "/a/b" .nodeOnly).toOption.map (List.map Node.path) = some [] := by
  intro owner history s
  exact ⟨by decide +kernel, by decide +kernel, by decide +kernel, by decide +kernel⟩

end DataTree
