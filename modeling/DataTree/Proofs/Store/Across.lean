import DataTree.Proofs.Store.Operations
import DataTree.Proofs.Store.Owned
import DataTree.Proofs.Store.Selectors
import DataTree.Proofs.Store.Texts

/-!
# Queries across owners

A query over a dataspace looks for its rows by other means than a query of
one owner: it asks which owners are in the dataspace, and takes any row at the
path of the parent for the parent, whoever has it.  What comes out is told
apart by the names of owners only.

In a sound store both ways select the same rows of an owner, since a row hangs
under a row of its own owner, and the walk up to an ancestor stays there.  No
two owners of a dataspace have one name, so the name tells whose a node is.
And nothing is read of the owners of other dataspaces.

## Main definitions

* `Store.Named` — no two owners of a dataspace have one name.
* `Store.within` — a store with the owners of one dataspace and nothing else.

## Main results

* `select_across` — the rows of one owner among those of a dataspace.
* `queryAcross_within` — a query over a dataspace sees its owners only.
* `queryAcross_parts` — a query over a dataspace consists of the queries of its
  owners.
-/

namespace DataTree

open DataTree.Path

/-! ## Names of owners -/

/-- No two owners of a dataspace have one name. -/
def Store.Named (s : Store) : Prop :=
  s.owners.Pairwise fun o p => o.dataspaceId = p.dataspaceId → o.name ≠ p.name

namespace Store.Named

variable {s t : Store}

theorem empty : Store.empty.Named := .nil

theorem of_sublist (h : s.Named) (howners : t.owners.Sublist s.owners) : t.Named :=
  List.Pairwise.sublist howners h

theorem of_owners_eq (h : s.Named) (howners : t.owners = s.owners) : t.Named :=
  h.of_sublist (howners ▸ .refl _)

/-- A name that no owner of the dataspace has can be given to a new one. -/
theorem append (h : s.Named) {o : OwnerRow} (howners : t.owners = s.owners ++ [o])
    (hnew : (s.owners.any fun p => p.dataspaceId = o.dataspaceId && p.name = o.name) = false) :
    t.Named := by
  rw [Named, howners]
  refine List.pairwise_append.mpr ⟨h, List.pairwise_singleton _ _, fun p hp q hq => ?_⟩
  obtain rfl := List.mem_singleton.mp hq
  intro hdataspace hname
  have hp := List.any_eq_false.mp hnew p hp
  simp [hdataspace, hname] at hp

theorem eq_of_name (h : s.Named) {o p : OwnerRow} (ho : o ∈ s.owners) (hp : p ∈ s.owners)
    (hdataspace : o.dataspaceId = p.dataspaceId) (hname : o.name = p.name) : o = p := by
  by_contra hne
  have hsymm : Std.Symm fun o p : OwnerRow => o.dataspaceId = p.dataspaceId → o.name ≠ p.name :=
    ⟨fun a b hab hdataspace => (hab hdataspace.symm).symm⟩
  exact List.Pairwise.forall h ho hp hne hdataspace hname

end Store.Named

/-- A request keeps the names of owners apart. -/
theorem named_run {s : Store} (h : s.Named) (access : Access) (asked : Request) :
    (asked.run access s).Named := by
  have hdoes := asked.does_run access s
  generalize asked.run access s = s' at hdoes ⊢
  cases hdoes with
  | nothing => exact h
  | createDataspace name hnew => exact h.of_owners_eq rfl
  | createOwner dataspace name hnew hthere => exact h.append rfl hnew
  | deleteOwner owner hthere => exact h.of_sublist List.filter_sublist
  | write access owner w =>
      exact h.of_owners_eq (tables_of_rowless (rowless_write s access owner w)).1
  | deleteForOwners dataspace names =>
      exact h.of_owners_eq (tables_of_rowless (rowless_clearOwners s _)).1

theorem named_operation (operation : Operation) (s : Store) (h : s.Named) :
    (operation.run s).Named := by
  rcases operation.request_or_unlocked s with ⟨access, asked, rfl⟩ | hsame
  · exact named_run h access asked
  · exact h.of_owners_eq (tables_of_unlocked hsame).1

theorem named_after (history : List Operation) : (Store.empty.after history).Named :=
  Store.after_keeps (fun operation _ => named_operation operation) .empty

/-! ## Rows of a dataspace -/

section Select

variable {s : Store} {dataspace : Nat}

theorem covers_dataspace_iff {owner : Nat} :
    (Scope.dataspace dataspace).covers s owner = true ↔
      ∃ o ∈ s.owners, o.id = owner ∧ o.dataspaceId = dataspace := by
  simp [Scope.covers]

variable (hs : s.Sound)

include hs

/-- The row at the path of the parent that is the parent is one of the same
owner. -/
theorem hasParentAt_across (parent : String) {r : Row} (hr : r ∈ s.rows) :
    hasParentAt s (.dataspace dataspace) parent r = hasParentAt s (.owner r.owner) parent r := by
  rw [hasParentAt, hasParentAt]
  split
  · rfl
  · rw [Bool.eq_iff_iff]
    simp only [List.any_eq_true, Option.any_eq_true, Bool.and_eq_true, decide_eq_true_eq]
    constructor
    · rintro ⟨q, hq, hpath, hparent⟩
      have howner := (hs.of_parent hq hr hparent).1
      exact ⟨q, (rowAt?_eq_some_iff hs).mpr ⟨hq, howner, hpath⟩, hparent⟩
    · rintro ⟨q, hfound, hparent⟩
      obtain ⟨hq, -, hpath⟩ := rowAt?_eq_some hfound
      exact ⟨q, hq, hpath, hparent⟩

/-- A query of an owner names the rows that a query over its dataspace names,
as far as they are its own. -/
theorem filter_isNamed_across {o : OwnerRow} (ho : o ∈ s.owners) (q : Query) :
    s.rows.filter (isNamed s (.owner o.id) q)
      = (s.rows.filter (isNamed s (.dataspace o.dataspaceId) q)).filter
          fun r => r.owner = o.id := by
  rw [List.filter_filter]
  refine List.filter_congr fun r hr => ?_
  by_cases howner : r.owner = o.id
  · have hcovers : (Scope.dataspace o.dataspaceId).covers s r.owner = true :=
      covers_dataspace_iff.mpr ⟨o, ho, howner.symm, rfl⟩
    rw [isNamed, isNamed, hcovers, hasParentAt_across hs _ hr, howner]
    simp [Scope.covers]
  · simp [isNamed, Scope.covers, howner]

/-- What is above the rows of some owners among some rows are the rows of these
owners among those above them. -/
theorem nearestAbove_filter {rows : List Row} (hrows : ∀ r ∈ rows, r ∈ s.rows) (K : Nat → Bool)
    (p : Row → Bool) :
    nearestAbove s p (rows.filter fun r => K r.owner)
      = (nearestAbove s p rows).filter fun r => K r.owner := by
  simp only [nearestAbove]
  rw [List.filter_filter]
  refine List.filter_congr fun r hr => ?_
  rw [Bool.eq_iff_iff]
  simp only [Bool.and_eq_true, List.contains_iff_mem, List.mem_filterMap, List.mem_filter,
    Option.map_eq_some_iff]
  constructor
  · rintro ⟨x, ⟨hx, hxowner⟩, top, htop, hid⟩
    obtain ⟨hmem, howner⟩ := owner_of_nearest hs (hrows x hx) htop
    obtain rfl := hs.eq_of_id hmem hr hid
    rw [howner]
    exact ⟨hxowner, x, hx, top, htop, rfl⟩
  · rintro ⟨hrowner, x, hx, top, htop, hid⟩
    obtain ⟨hmem, howner⟩ := owner_of_nearest hs (hrows x hx) htop
    obtain rfl := hs.eq_of_id hmem hr hid
    rw [howner] at hrowner
    exact ⟨x, ⟨hx, hrowner⟩, top, htop, rfl⟩

/-- A query that names of the rows of another those of some owners selects of
the rows of the other those of these owners, if its own statement is taken. -/
theorem select_of_isNamed {scope inner : Scope} {K : Nat → Bool}
    (hnamed : ∀ q, s.rows.filter (isNamed s inner q)
      = (s.rows.filter (isNamed s scope q)).filter fun r => K r.owner)
    {q : Selector} {rows : List Row} (h : s.select scope q = .ok rows)
    (hfits : q.fits inner = true) : s.select inner q = .ok (rows.filter fun r => K r.owner) := by
  obtain ⟨named, hread, h⟩ := bind_eq_ok_iff.mp (Store.select_eq_ok_iff.mp h).2
  have hstored : ∀ r ∈ named, r ∈ s.rows :=
    fun r hr => (List.mem_filter.mp (mem_of_filterByLeaves hread r hr)).1
  rw [Store.select_of_fits s hfits, Store.pick, hnamed, filterByLeaves_filter hread]
  cases hancestor : q.ancestor with
  | none =>
      rw [hancestor] at h
      cases h
      rfl
  | some a =>
      rw [hancestor] at h
      show filterByLeaves a (nearestAbove s _ (named.filter fun r => K r.owner)) = _
      rw [nearestAbove_filter hs hstored, filterByLeaves_filter h]

/-- A query over a dataspace selects of the rows of each of its owners those
that the query of the owner selects, in the same order.  The statement of the owner
may nest too deep all the same: below a parent it asks for more. -/
theorem select_across {o : OwnerRow} (ho : o ∈ s.owners) {q : Selector} {rows : List Row}
    (h : s.select (.dataspace o.dataspaceId) q = .ok rows) :
    s.select (.owner o.id) q
      = if q.fits (.owner o.id) then .ok (rows.filter fun r => r.owner = o.id)
        else .error (.engine .deepExpression) := by
  split
  next hfits =>
    exact select_of_isNamed (K := fun id => id = o.id) hs (filter_isNamed_across hs ho) h hfits
  next hfits => exact Store.select_of_not_fits s (Bool.eq_false_iff.mpr hfits)

/-- Every row that a query over a dataspace selects belongs to one of its
owners. -/
theorem covered_of_select {q : Selector} {rows : List Row}
    (h : s.select (.dataspace dataspace) q = .ok rows) {r : Row} (hr : r ∈ rows) :
    ∃ o ∈ s.owners, o.id = r.owner ∧ o.dataspaceId = dataspace := by
  obtain ⟨named, hnamed, h⟩ := bind_eq_ok_iff.mp (Store.select_eq_ok_iff.mp h).2
  have hcovered : ∀ x ∈ named, x ∈ s.rows ∧
      ∃ o ∈ s.owners, o.id = x.owner ∧ o.dataspaceId = dataspace := by
    intro x hx
    obtain ⟨hstored, hnamed⟩ := List.mem_filter.mp (mem_of_filterByLeaves hnamed x hx)
    rw [isNamed, Bool.and_eq_true] at hnamed
    exact ⟨hstored, covers_dataspace_iff.mp hnamed.1⟩
  split at h
  · cases h
    exact (hcovered r hr).2
  · obtain ⟨hstored, habove⟩ := List.mem_filter.mp (mem_of_filterByLeaves h r hr)
    obtain ⟨x, hx, hfound⟩ := List.mem_filterMap.mp (List.contains_iff_mem.mp habove)
    obtain ⟨top, htop, hid⟩ := Option.map_eq_some_iff.mp hfound
    obtain ⟨hmem, howner⟩ := owner_of_nearest hs (hcovered x hx).1 htop
    obtain rfl := hs.eq_of_id hmem hstored hid
    rw [howner]
    exact (hcovered x hx).2

end Select

/-! ## Names of nodes -/

theorem ownerName_eq {s : Store} (hn : s.Numbered) {o : OwnerRow} (ho : o ∈ s.owners) :
    s.ownerName o.id = o.name := by
  rw [Store.ownerName]
  cases hfind : s.owners.find? fun p => p.id = o.id with
  | none => simpa using List.find?_eq_none.mp hfind o ho
  | some p =>
      have hid : p.id = o.id := by simpa using List.find?_some hfind
      rw [hn.eq_of_id (List.mem_of_find?_eq_some hfind) ho hid]
      rfl

/-! ## The owners of other dataspaces -/

/-- A store without the owners of other dataspaces and their rows. -/
def Store.within (s : Store) (dataspace : Nat) : Store :=
  { s with
    owners := s.owners.filter fun o => o.dataspaceId = dataspace
    rows := s.rows.filter fun r => (Scope.dataspace dataspace).covers s r.owner }

section Within

variable {s : Store} {dataspace : Nat}

theorem covers_within (s : Store) (dataspace owner : Nat) :
    (Scope.dataspace dataspace).covers (s.within dataspace) owner
      = (Scope.dataspace dataspace).covers s owner := by
  simp only [Scope.covers, Store.within, List.any_filter]
  congr 1
  funext o
  cases decide (o.dataspaceId = dataspace) <;> simp

theorem ownerName_within (hn : s.Numbered) {o : OwnerRow} (ho : o ∈ s.owners)
    (hdataspace : o.dataspaceId = dataspace) :
    (s.within dataspace).ownerName o.id = s.ownerName o.id := by
  have hn' : (s.within dataspace).Numbered := hn.of_sublist List.filter_sublist rfl
  have ho' : o ∈ (s.within dataspace).owners :=
    List.mem_filter.mpr ⟨ho, decide_eq_true hdataspace⟩
  rw [ownerName_eq hn' ho', ownerName_eq hn ho]

section

variable (hs : s.Sound)

include hs

/-- The row that is the parent has the same owner, so it is still there. -/
theorem hasParentAt_within (parent : String) {r : Row} (hr : r ∈ s.rows)
    (hcovers : (Scope.dataspace dataspace).covers s r.owner = true) :
    hasParentAt (s.within dataspace) (.dataspace dataspace) parent r
      = hasParentAt s (.dataspace dataspace) parent r := by
  rw [hasParentAt, hasParentAt]
  split
  · rfl
  · rw [Store.within, List.any_filter, Bool.eq_iff_iff]
    simp only [List.any_eq_true, Bool.and_eq_true, decide_eq_true_eq]
    refine exists_congr fun q => and_congr_right fun hq => and_iff_right_of_imp fun h => ?_
    rw [(hs.of_parent hq hr h.2).1, hcovers]

theorem filter_isNamed_within (q : Query) :
    (s.within dataspace).rows.filter (isNamed (s.within dataspace) (.dataspace dataspace) q)
      = s.rows.filter (isNamed s (.dataspace dataspace) q) := by
  show (s.rows.filter _).filter _ = _
  rw [List.filter_filter]
  refine List.filter_congr fun r hr => ?_
  cases hcovers : (Scope.dataspace dataspace).covers s r.owner with
  | false => simp [isNamed, hcovers]
  | true =>
      rw [isNamed, isNamed, Bool.and_true, hasParentAt_within hs _ hr hcovers, covers_within]

theorem select_within (q : Selector) :
    (s.within dataspace).select (.dataspace dataspace) q = s.select (.dataspace dataspace) q := by
  refine Store.select_congr ?_
  rw [Store.pick, Store.pick, filter_isNamed_within hs]
  cases hrows : filterByLeaves q.query
      (s.rows.filter (isNamed s (.dataspace dataspace) q.query)) with
  | error e => rfl
  | ok rows =>
      have hcovered : ∀ r ∈ rows, r ∈ s.rows
          ∧ (Scope.dataspace dataspace).covers s r.owner = true := by
        intro r hr
        obtain ⟨hstored, hnamed⟩ := List.mem_filter.mp (mem_of_filterByLeaves hrows r hr)
        rw [isNamed, Bool.and_eq_true] at hnamed
        exact ⟨hstored, hnamed.1⟩
      cases q.ancestor with
      | none => rfl
      | some a =>
          exact congrArg (filterByLeaves a) (nearestAbove_of_owners hs rfl hcovered _)

/-- A query over a dataspace sees nothing of the owners of others. -/
theorem queryAcross_within (hn : s.Numbered) {dataspace : Dataspace} (path : String)
    (fetch : Fetch) :
    (s.within dataspace.id).queryAcross dataspace path fetch none
      = s.queryAcross dataspace path fetch none := by
  rw [Store.queryAcross, Store.queryAcross]
  split
  · rfl
  · cases readSelector path with
    | error e => rfl
    | ok q =>
        show (s.within dataspace.id).select (.dataspace dataspace.id) q >>= _
          = s.select (.dataspace dataspace.id) q >>= _
        rw [select_within hs]
        cases hrows : s.select (.dataspace dataspace.id) q with
        | error e => rfl
        | ok rows =>
            refine mapM_congr fun r hr => ?_
            obtain ⟨o, ho, hid, hdataspace⟩ := covered_of_select hs hrows hr
            have hcovers : (Scope.dataspace dataspace.id).covers s r.owner = true :=
              covers_dataspace_iff.mpr ⟨o, ho, hid, hdataspace⟩
            have hnode : (s.within dataspace.id).node fetch r = s.node fetch r :=
              node_of_owners hs rfl (mem_of_select hrows r hr) hcovers fetch
            rw [hnode, ← hid, ownerName_within hn ho hdataspace]

end

end Within

/-! ## Queries over a dataspace -/

/-- The nodes of a query over a dataspace are those of the rows it selects,
each with the name of the owner. -/
theorem queryAcross_eq_ok_iff {s : Store} {dataspace : Dataspace} {path : String} {fetch : Fetch}
    {found : List (String × Node)} :
    s.queryAcross dataspace path fetch none = .ok found ↔
      ∃ q rows, readSelector path = .ok q ∧ s.select (.dataspace dataspace.id) q = .ok rows
        ∧ rows.mapM (fun r => (s.node fetch r).map fun n => (s.ownerName r.owner, n))
          = .ok found := by
  show (readSelector path >>= fun q => s.select (.dataspace dataspace.id) q >>= fun rows =>
    rows.mapM fun r => s.node fetch r >>= fun n => pure (s.ownerName r.owner, n)) = _ ↔ _
  simp only [bind_pure_eq_map, bind_eq_ok_iff]
  constructor
  · rintro ⟨q, hq, rows, hrows, hread⟩
    exact ⟨q, rows, hq, hrows, hread⟩
  · rintro ⟨q, rows, hq, hrows, hread⟩
    exact ⟨q, hq, rows, hrows, hread⟩

/-- Whatever operations have been run, a query over a dataspace that succeeds
gives for the name of each of its owners what the query of that owner gives,
in the same order, unless the statement for the one owner nests too deep.
Every node has the name of an owner of the dataspace, of which it is a row,
and without the owners of other dataspaces and their rows the query gives the
same. -/
theorem queryAcross_parts {history : List Operation} {dataspace : Dataspace} {path : String}
    {fetch : Fetch} {found : List (String × Node)} (hpath : isRoot path = false)
    (hfound : (Store.empty.after history).queryAcross dataspace path fetch none = .ok found) :
    let s := Store.empty.after history
    (∃ q, readSelector path = .ok q
        ∧ ∀ o ∈ s.owners, o.dataspaceId = dataspace.id → ∀ owner : Owner, owner.id = o.id →
          s.query owner path fetch
            = if q.fits (.owner owner.id) then
                .ok ((found.filter fun e => e.1 = o.name).map Prod.snd)
              else .error (.engine .deepExpression))
      ∧ (∀ e ∈ found, ∃ o ∈ s.owners, o.dataspaceId = dataspace.id ∧ o.name = e.1
          ∧ ∃ r ∈ s.rowsOf o.id, s.node fetch r = .ok e.2)
      ∧ (s.within dataspace.id).queryAcross dataspace path fetch none = .ok found := by
  intro s
  have hs : s.Sound := sound_after history
  have hn : s.Numbered := numbered_after history
  have hnames : s.Named := Store.after_keeps (fun operation _ => named_operation operation) .empty
  obtain ⟨q, rows, hq, hrows, hread⟩ := queryAcross_eq_ok_iff.mp hfound
  refine ⟨⟨q, hq, fun o ho hdataspace owner hid => ?_⟩, fun e he => ?_, ?_⟩
  · have hnodes : s.nodes fetch (rows.filter fun r => r.owner = o.id)
        = .ok ((found.filter fun e => e.1 = o.name).map Prod.snd) := by
      refine mapM_filter_map hread fun r hr e he => ?_
      obtain ⟨n, hnode, rfl⟩ := map_eq_ok_iff.mp he
      obtain ⟨p, hp, hpid, hpdataspace⟩ := covered_of_select hs hrows hr
      rw [← hpid, ownerName_eq hn hp]
      refine ⟨?_, hnode⟩
      rw [decide_eq_decide]
      constructor
      · intro hname
        rw [hnames.eq_of_name hp ho (hpdataspace.trans hdataspace.symm) hname]
      · intro hsame
        rw [hn.eq_of_id hp ho hsame]
    rw [Store.query, if_neg (by simp [hpath]), hq]
    show s.select (.owner owner.id) q >>= s.nodes fetch = _
    rw [hid, select_across hs ho (hdataspace ▸ hrows)]
    split
    · exact hnodes
    · rfl
  · obtain ⟨r, hr, he⟩ := exists_of_mapM_eq_ok hread he
    obtain ⟨n, hnode, rfl⟩ := map_eq_ok_iff.mp he
    obtain ⟨o, ho, hid, hdataspace⟩ := covered_of_select hs hrows hr
    have hown : r ∈ s.rowsOf o.id := Store.mem_rowsOf.mpr ⟨mem_of_select hrows r hr, hid.symm⟩
    refine ⟨o, ho, hdataspace, ?_, r, hown, hnode⟩
    rw [← hid, ownerName_eq hn ho]
  · rw [queryAcross_within hs hn, hfound]

/-- Two dataspaces with an owner of one name and equal trees, stored in turn
with those of another owner, one of whose trees has no node that is asked
for. -/
theorem queryAcross_parts_of_equal_names :
    let child : Node := .mk "/x/y[@k='1']" [("n", .bool true)] []
    let tree : Node := .mk "/x" [] [(child.path, child)]
    let request := Operation.request .readWrite
    let history := [request (.createDataspace "d"), request (.createDataspace "e"),
      request (.createOwner ⟨1, "d"⟩ "a"), request (.createOwner ⟨2, "e"⟩ "a"),
      request (.createOwner ⟨1, "d"⟩ "b"), request (.write ⟨3, 1, "d", "b"⟩ (.store [tree])),
      request (.write ⟨2, 2, "e", "a"⟩ (.store [tree])),
      request (.write ⟨1, 1, "d", "a"⟩ (.store [.leafless "/y", tree]))]
    let s := Store.empty.after history
    isRoot "/x/y" = false
      ∧ (s.within 1).rows.map (fun r => (r.id, r.owner, r.path))
        = [(1, 3, "/x"), (2, 3, "/x/y[@k='1']"), (5, 1, "/y"), (6, 1, "/x"), (7, 1, "/x/y[@k='1']")]
      ∧ ∃ found, s.queryAcross ⟨1, "d"⟩ "/x/y" .nodeOnly none = .ok found
        ∧ found.map (fun e => (e.1, e.2.path)) = [("b", child.path), ("a", child.path)]
        ∧ s.query ⟨1, 1, "d", "a"⟩ "/x/y" .nodeOnly
          = .ok ((found.filter fun e => e.1 = "a").map Prod.snd)
        ∧ (s.within 1).queryAcross ⟨1, "d"⟩ "/x/y" .nodeOnly none = .ok found := by
  intro child tree request history s
  have hpath : isRoot "/x/y" = false := by decide +kernel
  have hmine : (⟨1, 1, "a"⟩ : OwnerRow) ∈ s.owners := by decide +kernel
  have hanswer : (s.queryAcross ⟨1, "d"⟩ "/x/y" .nodeOnly none).toOption.map
      (List.map fun e => (e.1, e.2.path)) = some [("b", child.path), ("a", child.path)] := by
    decide +kernel
  obtain ⟨found, hfound, hnames⟩ := Option.map_eq_some_iff.mp hanswer
  have hfound := toOption_eq_some_iff.mp hfound
  have hfits : ((readSelector "/x/y").toOption.any fun q => q.fits (.owner 1)) = true := by
    decide +kernel
  obtain ⟨⟨q, hq, hparts⟩, -, hwithin⟩ := queryAcross_parts hpath hfound
  rw [hq] at hfits
  refine ⟨hpath, by decide +kernel, found, hfound, hnames, ?_, hwithin⟩
  have hmatched := hparts _ hmine rfl ⟨1, 1, "d", "a"⟩ rfl
  rwa [if_pos (show q.fits (.owner 1) = true from hfits)] at hmatched

/-- Asked 988 times whether it is one, the only leaf of the only owner is found across the
owners of the dataspace, but a query of that owner is refused: below a parent its statement
nests one level deeper. -/
theorem query_refused_of_queryAcross :
    let element : Node := .mk "/b/a" [("x", .number (.integer 1))] []
    let owner : Owner := ⟨1, 1, "d", "o"⟩
    let request := Operation.request .readWrite
    let history := [request (.createDataspace "d"), request (.createOwner ⟨1, "d"⟩ "o"),
      request (.write owner (.store [.mk "/b" [] [(element.path, element)]]))]
    let s := Store.empty.after history
    let place : Query := ⟨.absolute, [⟨"b", []⟩], "a", .filtered none none, none⟩
    let path := (place.repeating ⟨"x", .equal, .integer 1⟩ 987).normalized
    isRoot path = false
      ∧ (∃ found, s.queryAcross ⟨1, "d"⟩ path .nodeOnly none = .ok found
        ∧ found.map (fun e => (e.1, e.2.path)) = [("o", "/b/a")])
      ∧ s.query owner path .nodeOnly = .error (.engine .deepExpression) := by
  intro element owner request history s place path
  let c : Condition := ⟨"x", .equal, .integer 1⟩
  let r : Row := ⟨2, 1, "/b/a", some 1, element.leaves.text⟩
  have hsingle : (Query.parse "/b/a[@x=1]").toOption = some (place.repeating c 0) := by
    decide +kernel
  rw [toOption_eq_some_iff] at hsingle
  have hpath := parse_repeating hsingle 987
  have hselector := selector_repeating (q := place) (c := c) rfl rfl 987
  obtain ⟨hpicked, hshown⟩ :
      (s.pick (.dataspace 1) ⟨place.repeating c 0, none⟩).toOption = some [r]
        ∧ ([r].mapM fun r =>
            (s.node .nodeOnly r).map fun n => (s.ownerName r.owner, n)).toOption.map
          (List.map fun e => (e.1, e.2.path)) = some [("o", "/b/a")] := by
    decide +kernel
  have hselect : s.select (.dataspace 1) ⟨place.repeating c 987, none⟩ = .ok [r] := by
    have hfits := (fits_repeating_iff place c 987 (.dataspace 1)).mpr (by decide +kernel)
    rw [Store.select_of_fits s hfits, pick_repeating]
    exact toOption_eq_some_iff.mp hpicked
  have hdeep : (⟨place.repeating c 987, none⟩ : Selector).fits (.owner 1) = false :=
    Bool.eq_false_iff.mpr (mt (fits_repeating_iff place c 987 (.owner 1)).mp (by decide +kernel))
  obtain ⟨found, hread, hfound⟩ := Option.map_eq_some_iff.mp hshown
  refine ⟨isRoot_of_parse hpath, ⟨found, queryAcross_eq_ok_iff.mpr
    ⟨_, [r], readSelector_of_selector hpath hselector, hselect, toOption_eq_some_iff.mp hread⟩,
    hfound⟩, ?_⟩
  exact query_of_not_fits hpath hselector hdeep .nodeOnly

end DataTree
