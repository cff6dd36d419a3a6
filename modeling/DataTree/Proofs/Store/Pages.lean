import DataTree.Proofs.Store.Across
import DataTree.Proofs.Store.Validity

/-!
# Pages of a query across owners

A page is read in two queries: one finds the owners that match and cuts the
page out of them, the other reads the nodes of the owners that are left.  The
number of pages comes from a third query, which counts the owners.  All three
select the same rows, and a page of owners is a block of a list without
repetitions, so the pages that are counted hold every result once.  The statement for a
page nests no deeper than the others, so either all of them are taken or none.

Stored leaves that a read accepts can also be read by queries, whose own
reader allows deeper nesting, but does not take an empty text for no leaves.
No row has an empty text.

## Main definitions

* `Page.block` — the members of a list on a page.
* `Store.ownersNamed` — the owners that results have.
* `Store.onPage` — the results that belong on a page.

## Main results

* `existsUnique_block` — each member of a list is on one page.
* `readable_after` — queries can read the leaves of a plain store.
* `select_owners` — the rows of some owners among those of a dataspace.
* `queryAcross_of_not_fits` — a statement that nests too deep is refused for every page.
* `queryAcross_pages` — pages partition the results of a query.
-/

namespace DataTree

open DataTree.Path

/-! ## Blocks of a list -/

section Block

variable {α : Type}

/-- The members of a list on page `k` of pages of `size`. -/
def Page.block (size k : Nat) (xs : List α) : List α := (xs.drop ((k - 1) * size)).take size

theorem Page.select_eq {p : Page} (h : p.offset < offsetBound) (xs : List α) :
    p.select xs = block p.size.toNat p.index.toNat xs := by
  rw [Page.select, if_pos h, Page.offset, Page.block]

theorem Page.mem_block_iff {size k : Nat} {xs : List α} {x : α} :
    x ∈ block size k xs
      ↔ ∃ i, xs[i]? = some x ∧ (k - 1) * size ≤ i ∧ i < (k - 1) * size + size := by
  rw [block, List.mem_iff_getElem?]
  constructor
  · rintro ⟨j, hj⟩
    rw [List.getElem?_take] at hj
    split at hj
    · rw [List.getElem?_drop] at hj
      exact ⟨_, hj, by omega, by omega⟩
    · cases hj
  · rintro ⟨i, hi, hlow, hhigh⟩
    refine ⟨i - (k - 1) * size, ?_⟩
    rw [List.getElem?_take, if_pos (by omega), List.getElem?_drop]
    rwa [Nat.add_sub_cancel' hlow]

/-- The pages that are counted are those that start below the number of
members. -/
theorem le_count_iff {p : Page} {total k : Nat} (hsize : 0 < p.size) (hk : 1 ≤ k) :
    k ≤ Paging.count (some p) total ↔ (k - 1) * p.size.toNat < total := by
  have hpos : 0 < p.size.toNat := UInt32.lt_iff_toNat_lt.mp hsize
  have hne : p.size ≠ 0 := fun hzero => by simp [hzero] at hpos
  obtain ⟨j, rfl⟩ : ∃ j, k = j + 1 := ⟨k - 1, by omega⟩
  rw [Paging.count, if_neg hne, Nat.le_div_iff_mul_le hpos, Nat.add_mul, Nat.one_mul,
    Nat.add_sub_cancel]
  omega

/-- Each member of a list without repetitions is on one of its pages. -/
theorem existsUnique_block {p : Page} {xs : List α} (hsize : 0 < p.size) (hxs : xs.Nodup) {x : α}
    (hx : x ∈ xs) :
    ∃! k, (1 ≤ k ∧ k ≤ Paging.count (some p) xs.length) ∧ x ∈ Page.block p.size.toNat k xs := by
  have hpos : 0 < p.size.toNat := UInt32.lt_iff_toNat_lt.mp hsize
  obtain ⟨i, hi⟩ := List.mem_iff_getElem?.mp hx
  have hlt : i < xs.length := (List.getElem?_eq_some_iff.mp hi).1
  have hlow : i / p.size.toNat * p.size.toNat ≤ i := Nat.div_mul_le_self _ _
  refine ⟨i / p.size.toNat + 1, ⟨⟨Nat.le_add_left _ _, ?_⟩, ?_⟩, ?_⟩
  · apply (le_count_iff hsize (Nat.le_add_left _ _)).mpr
    rw [Nat.add_sub_cancel]
    exact Nat.lt_of_le_of_lt hlow hlt
  · apply Page.mem_block_iff.mpr
    rw [Nat.add_sub_cancel]
    exact ⟨i, hi, hlow, Nat.lt_div_mul_add hpos⟩
  · rintro k ⟨⟨hk, -⟩, hblock⟩
    obtain ⟨j, hj, hlow, hhigh⟩ := Page.mem_block_iff.mp hblock
    obtain rfl : i = j := (List.getElem?_inj hlt hxs).mp (hi.trans hj.symm)
    have hrank : i / p.size.toNat = k - 1 :=
      Nat.div_eq_of_lt_le hlow (by rwa [Nat.succ_mul])
    omega

end Block

/-! ## Leaves that queries can read -/

/-- Queries read what reads of nodes accept, unless it is empty. -/
theorem storedDocument?_of_parse {text : String} {leaves : Leaves} (hne : text ≠ "")
    (h : Leaves.parse text = some leaves) : (storedDocument? text).isSome = true := by
  rw [Leaves.parse, if_neg hne] at h
  cases hvalue : Json.parse text with
  | none =>
      rw [hvalue] at h
      cases h
  | some v =>
      obtain ⟨d, hd, hread⟩ := Option.bind_eq_some_iff.mp hvalue
      have hdepth : d.depth ≤ storedNesting :=
        Nat.le_trans (Json.document_depth_le d hread) (by decide)
      rw [storedDocument?, hd]
      simp [hdepth]

/-- Whatever operations have been run, no row has an empty text. -/
theorem attributes_ne_empty (history : List Operation) :
    ∀ r ∈ (Store.empty.after history).rows, r.attributes ≠ "" := by
  intro r hr
  have hfilled : (Store.empty.after history).Filled (fun _ => True) (· ≠ "") :=
    filled_after fun operation _ w _ =>
      ⟨fun _ _ n _ _ _ _ => ⟨trivial, Leaves.text_ne_empty n.leaves⟩,
        fun _ _ _ _ _ _ => Leaves.text_ne_empty _⟩
  exact (hfilled r hr).2

/-- So queries can read the leaves of a plain store. -/
theorem readable_after {history : List Operation} (h : (Store.empty.after history).Plain) :
    ∀ r ∈ (Store.empty.after history).rows, (storedDocument? r.attributes).isSome = true := by
  intro r hr
  obtain ⟨leaves, hparse, -⟩ := h r hr
  exact storedDocument?_of_parse (attributes_ne_empty history r hr) hparse

/-! ## Rows of some owners -/

section Select

variable {s : Store}

/-- Every query that the engine takes succeeds on a store whose leaves queries can read. -/
theorem exists_select (hread : ∀ r ∈ s.rows, (storedDocument? r.attributes).isSome = true)
    {scope : Scope} {q : Selector} (hfits : q.fits scope = true) :
    ∃ rows, s.select scope q = .ok rows := by
  have hstored : ∀ (p : Row → Bool), ∀ r ∈ s.rows.filter p, r ∈ s.rows :=
    fun _ r hr => (List.mem_filter.mp hr).1
  rw [Store.select_of_fits s hfits, Store.pick, filterByLeaves_of_readable hread _ (hstored _)]
  cases q.ancestor with
  | none => exact ⟨_, rfl⟩
  | some a => exact ⟨_, filterByLeaves_of_readable hread a (hstored _)⟩

/-- A query over owners of a dataspace names the rows that a query over the
dataspace names, as far as they are theirs. -/
theorem filter_isNamed_owners {dataspace : Nat} {ids : List Nat}
    (hids : ∀ id ∈ ids, (Scope.dataspace dataspace).covers s id = true) (q : Query) :
    s.rows.filter (isNamed s (.owners ids) q)
      = (s.rows.filter (isNamed s (.dataspace dataspace) q)).filter
          fun r => ids.contains r.owner := by
  rw [List.filter_filter]
  refine List.filter_congr fun r _ => ?_
  have hcovers : (Scope.owners ids).covers s r.owner = ids.contains r.owner := rfl
  have hparent : hasParentAt s (.owners ids) = hasParentAt s (.dataspace dataspace) := rfl
  rw [isNamed, isNamed, hparent, hcovers]
  cases hcontains : ids.contains r.owner with
  | false => rfl
  | true =>
      rw [hids r.owner (List.contains_iff_mem.mp hcontains)]
      rfl

theorem select_owners (hs : s.Sound) {dataspace : Nat} {ids : List Nat}
    (hids : ∀ id ∈ ids, (Scope.dataspace dataspace).covers s id = true) {q : Selector}
    {rows : List Row} (h : s.select (.dataspace dataspace) q = .ok rows) :
    s.select (.owners ids) q = .ok (rows.filter fun r => ids.contains r.owner) :=
  select_of_isNamed (K := fun id => ids.contains id) hs (filter_isNamed_owners hids) h
    (fits_owners (Store.select_eq_ok_iff.mp h).1)

/-- A statement that nests too deep for a dataspace is refused for all of it and for every
page, whatever is stored. -/
theorem queryAcross_of_not_fits {dataspace : Dataspace} {path : String} {q : Selector}
    (hpath : readSelector path = .ok q) (hdeep : q.fits (.dataspace dataspace.id) = false)
    (fetch : Fetch) {paging : Paging} (hvalid : paging.isValid = true) :
    s.queryAcross dataspace path fetch paging = .error (.engine .deepExpression) := by
  have hselect := Store.select_of_not_fits s hdeep
  rw [Store.queryAcross, hvalid, hpath]
  cases paging with
  | none =>
      show (s.select (.dataspace dataspace.id) q >>= _) = _
      rw [hselect]
      rfl
  | some page =>
      have hscope : s.pageScope dataspace q (some page) = .error (.engine .deepExpression) := by
        rw [Store.pageScope, Store.ownersOnPage, hselect]
        rfl
      show (s.pageScope dataspace q (some page) >>= _) = _
      rw [hscope]
      rfl

theorem countOwners_of_not_fits {dataspace : Dataspace} {path : String} {q : Selector}
    (hpath : readSelector path = .ok q) (hdeep : q.fits (.dataspace dataspace.id) = false) :
    s.countOwners dataspace path = .error (.engine .deepExpression) := by
  rw [Store.countOwners, hpath]
  show (s.select (.dataspace dataspace.id) q >>= _) = _
  rw [Store.select_of_not_fits s hdeep]
  rfl

end Select

/-! ## Results and their owners -/

/-- The owners of a dataspace that results have. -/
def Store.ownersNamed (s : Store) (dataspace : Dataspace) (results : List (String × Node)) :
    List OwnerRow :=
  s.owners.filter fun o => o.dataspaceId = dataspace.id && (results.map Prod.fst).contains o.name

/-- The results that belong on page `k` of pages of `size` owners. -/
def Store.onPage (s : Store) (dataspace : Dataspace) (results : List (String × Node))
    (size k : Nat) : List (String × Node) :=
  results.filter fun e =>
    ((Page.block size k (s.ownersNamed dataspace results)).map OwnerRow.name).contains e.1

section Results

variable {s : Store} {dataspace : Dataspace} {results : List (String × Node)}

theorem Store.mem_ownersNamed {o : OwnerRow} :
    o ∈ s.ownersNamed dataspace results ↔
      o ∈ s.owners ∧ o.dataspaceId = dataspace.id ∧ o.name ∈ results.map Prod.fst := by
  simp [ownersNamed]

theorem Store.mem_onPage {size k : Nat} {e : String × Node} :
    e ∈ s.onPage dataspace results size k ↔ e ∈ results
      ∧ ∃ o ∈ Page.block size k (s.ownersNamed dataspace results), o.name = e.1 := by
  simp [onPage]

theorem Page.mem_of_mem_block {α : Type} {size k : Nat} {xs : List α} {x : α}
    (h : x ∈ Page.block size k xs) : x ∈ xs :=
  List.mem_of_mem_drop (List.mem_of_mem_take h)

theorem ids_ownersNamed (hn : s.Numbered) :
    (s.ownersNamed dataspace results).Pairwise fun o p => o.id < p.id :=
  hn.ids.sublist List.filter_sublist

theorem nodup_ownersNamed (hn : s.Numbered) : (s.ownersNamed dataspace results).Nodup := by
  refine (ids_ownersNamed hn).imp fun {o p} hlt heq => ?_
  subst heq
  exact Nat.lt_irrefl o.id hlt

variable (hnames : s.Named)

include hnames

/-- The owners of a dataspace have names of their own. -/
theorem eq_of_ownersNamed {o p : OwnerRow} (ho : o ∈ s.ownersNamed dataspace results)
    (hp : p ∈ s.ownersNamed dataspace results) (hname : o.name = p.name) : o = p := by
  obtain ⟨ho, hodataspace, -⟩ := Store.mem_ownersNamed.mp ho
  obtain ⟨hp, hpdataspace, -⟩ := Store.mem_ownersNamed.mp hp
  exact hnames.eq_of_name ho hp (hodataspace.trans hpdataspace.symm) hname

/-- Results belong on the page of their owner. -/
theorem mem_onPage_iff {size k : Nat} {e : String × Node} (he : e ∈ results) {o : OwnerRow}
    (ho : o ∈ s.ownersNamed dataspace results) (hname : o.name = e.1) :
    e ∈ s.onPage dataspace results size k
      ↔ o ∈ Page.block size k (s.ownersNamed dataspace results) := by
  rw [Store.mem_onPage]
  constructor
  · rintro ⟨-, p, hp, hsame⟩
    rwa [← eq_of_ownersNamed hnames (Page.mem_of_mem_block hp) ho (hsame.trans hname.symm)]
  · intro hblock
    exact ⟨he, o, hblock, hname⟩

end Results

/-! ## The rows behind results -/

section Rows

variable {s : Store} {dataspace : Dataspace} {path : String} {q : Selector} {fetch : Fetch}
  {rows : List Row} {results : List (String × Node)}
  (hs : s.Sound) (hn : s.Numbered) (hnames : s.Named) (hpath : readSelector path = .ok q)
  (hrows : s.select (.dataspace dataspace.id) q = .ok rows)
  (hread : rows.mapM (fun r => (s.node fetch r).map fun n => (s.ownerName r.owner, n))
    = .ok results)

include hs hn hnames hrows

/-- A row that is selected belongs to the owner that has its name. -/
theorem ownerName_eq_iff {r : Row} (hr : r ∈ rows) {o : OwnerRow} (ho : o ∈ s.owners)
    (hdataspace : o.dataspaceId = dataspace.id) :
    s.ownerName r.owner = o.name ↔ r.owner = o.id := by
  obtain ⟨p, hp, hid, hpdataspace⟩ := covered_of_select hs hrows hr
  rw [← hid, ownerName_eq hn hp]
  constructor
  · intro hname
    rw [hnames.eq_of_name hp ho (hpdataspace.trans hdataspace.symm) hname]
  · intro hsame
    rw [hn.eq_of_id hp ho hsame]

include hread

/-- The owners that the rows have are those that the results have. -/
theorem ownersOf_eq : s.ownersOf rows = s.ownersNamed dataspace results := by
  refine List.filter_congr fun o ho => ?_
  rw [Bool.eq_iff_iff, Bool.and_eq_true, List.any_eq_true]
  simp only [decide_eq_true_eq, List.contains_iff_mem, List.mem_map]
  constructor
  · rintro ⟨r, hr, howner⟩
    obtain ⟨p, hp, hid, hdataspace⟩ := covered_of_select hs hrows hr
    obtain rfl := hn.eq_of_id hp ho (hid.trans howner)
    obtain ⟨e, he, hnode⟩ := exists_of_mem_of_mapM hread hr
    obtain ⟨n, -, rfl⟩ := map_eq_ok_iff.mp hnode
    exact ⟨hdataspace, _, he, (ownerName_eq_iff hs hn hnames hrows hr hp hdataspace).mpr howner⟩
  · rintro ⟨hdataspace, e, he, hname⟩
    obtain ⟨r, hr, hnode⟩ := exists_of_mapM_eq_ok hread he
    obtain ⟨n, -, rfl⟩ := map_eq_ok_iff.mp hnode
    exact ⟨r, hr, (ownerName_eq_iff hs hn hnames hrows hr ho hdataspace).mp hname⟩

/-- Every result has one of these owners. -/
theorem exists_ownerNamed {e : String × Node} (he : e ∈ results) :
    ∃ o ∈ s.ownersNamed dataspace results, o.name = e.1 := by
  obtain ⟨r, hr, hnode⟩ := exists_of_mapM_eq_ok hread he
  obtain ⟨n, -, rfl⟩ := map_eq_ok_iff.mp hnode
  obtain ⟨o, ho, hid, hdataspace⟩ := covered_of_select hs hrows hr
  have hname := (ownerName_eq_iff hs hn hnames hrows hr ho hdataspace).mpr hid.symm
  exact ⟨o, Store.mem_ownersNamed.mpr
    ⟨ho, hdataspace, List.mem_map.mpr ⟨_, he, hname⟩⟩, hname.symm⟩

/-- There are as many of them as there are names. -/
theorem length_ownersNamed :
    (s.ownersNamed dataspace results).length = (results.map Prod.fst).dedup.length := by
  have hnodup : ((s.ownersNamed dataspace results).map OwnerRow.name).Nodup :=
    (nodup_ownersNamed hn).map_on fun o ho p hp => eq_of_ownersNamed hnames ho hp
  rw [← List.length_map OwnerRow.name]
  refine ((List.perm_ext_iff_of_nodup hnodup (List.nodup_dedup _)).mpr fun name => ?_).length_eq
  rw [List.mem_dedup, List.mem_map]
  constructor
  · rintro ⟨o, ho, rfl⟩
    exact (Store.mem_ownersNamed.mp ho).2.2
  · intro hname
    obtain ⟨e, he, rfl⟩ := List.mem_map.mp hname
    exact exists_ownerNamed hs hn hnames hrows hread he

include hpath

theorem countOwners_eq :
    s.countOwners dataspace path = .ok (s.ownersNamed dataspace results).length := by
  rw [Store.countOwners, hpath]
  show (s.select (.dataspace dataspace.id) q >>= fun rows => pure (s.ownersOf rows).length) = _
  rw [hrows, ← ownersOf_eq hs hn hnames hrows hread]
  rfl

/-- A page has the results that belong on it. -/
theorem queryAcross_page {p : Page} (hvalid : p.isValid = true)
    (hoffset : p.offset < Page.offsetBound) :
    s.queryAcross dataspace path fetch (some p)
      = .ok (s.onPage dataspace results p.size.toNat p.index.toNat) := by
  let owners := Page.block p.size.toNat p.index.toNat (s.ownersNamed dataspace results)
  have howners : ∀ o ∈ owners, o ∈ s.owners ∧ o.dataspaceId = dataspace.id := by
    intro o ho
    obtain ⟨ho, hdataspace, -⟩ := Store.mem_ownersNamed.mp (Page.mem_of_mem_block ho)
    exact ⟨ho, hdataspace⟩
  have hscope : s.pageScope dataspace q (some p) = .ok (.owners (owners.map OwnerRow.id)) := by
    have hselect : p.select (s.ownersOf rows) = owners := by
      rw [Page.select_eq hoffset, ownersOf_eq hs hn hnames hrows hread]
    rw [Store.pageScope, Store.ownersOnPage, hrows, ← hselect]
    rfl
  have hids : ∀ id ∈ owners.map OwnerRow.id,
      (Scope.dataspace dataspace.id).covers s id = true := by
    intro id hid
    obtain ⟨o, ho, rfl⟩ := List.mem_map.mp hid
    exact covers_dataspace_iff.mpr ⟨o, (howners o ho).1, rfl, (howners o ho).2⟩
  have hpage : (rows.filter fun r => (owners.map OwnerRow.id).contains r.owner).mapM
        (fun r => (s.node fetch r).map fun n => (s.ownerName r.owner, n))
      = .ok ((s.onPage dataspace results p.size.toNat p.index.toNat).map id) := by
    refine mapM_filter_map hread fun r hr e he => ⟨?_, by rw [he, id]⟩
    obtain ⟨n, -, rfl⟩ := map_eq_ok_iff.mp he
    rw [Bool.eq_iff_iff]
    simp only [List.contains_iff_mem, List.mem_map]
    refine exists_congr fun o => and_congr_right fun ho => ?_
    rw [eq_comm, ownerName_eq_iff hs hn hnames hrows hr (howners o ho).1 (howners o ho).2, eq_comm]
  rw [List.map_id] at hpage
  rw [Store.queryAcross, Paging.isValid, hvalid, hpath]
  show (s.pageScope dataspace q (some p) >>= fun scope => s.select scope q >>= _) = _
  rw [hscope]
  show (s.select (.owners (owners.map OwnerRow.id)) q >>= _) = _
  rw [select_owners hs hids hrows, ← hpage]
  exact mapM_congr fun r _ => bind_pure_eq_map (s.node fetch r) _

end Rows

/-! ## The pages of a query -/

/-- Whatever operations have been run, as long as stored leaves are scalars and
lists of scalars, every query over a dataspace succeeds and so does its count, unless its
statement nests too deep: then the query, its count and all of its pages are refused.

The count is the number of owners that the results name.  Page `k` of the pages
that hold so many owners has the results of the owners of rank
`(k - 1) * size` to `k * size - 1` in the order of their ids, at least one of
them; each result is on one page, together with all others of its owner.

There are fewer than 2⁶³ ids to give to owners, and greater offsets count as
none. -/
theorem queryAcross_pages {history : List Operation} {dataspace : Dataspace} {path : String}
    {q : Selector} (fetch : Fetch) (size : UInt32) (hplain : (Store.empty.after history).Plain)
    (hfew : (Store.empty.after history).owners.length ≤ Page.offsetBound)
    (hpath : readSelector path = .ok q) (hsize : 0 < size) :
    let s := Store.empty.after history
    (q.fits (.dataspace dataspace.id) = false →
        s.countOwners dataspace path = .error (.engine .deepExpression)
          ∧ ∀ paging : Paging, paging.isValid = true →
            s.queryAcross dataspace path fetch paging = .error (.engine .deepExpression))
      ∧ (q.fits (.dataspace dataspace.id) = true →
        ∃ results total, s.queryAcross dataspace path fetch none = .ok results
          ∧ s.countOwners dataspace path = .ok total
          ∧ total = (results.map Prod.fst).dedup.length
          ∧ total = (s.ownersNamed dataspace results).length
          ∧ ((s.ownersNamed dataspace results).Pairwise fun o p => o.id < p.id)
          ∧ (∀ index : UInt32, 0 < index →
              index.toNat ≤ Paging.count (some ⟨index, size⟩) total →
              s.queryAcross dataspace path fetch (some ⟨index, size⟩)
                = .ok (s.onPage dataspace results size.toNat index.toNat))
          ∧ (∀ k, 1 ≤ k → k ≤ Paging.count (some ⟨1, size⟩) total →
              s.onPage dataspace results size.toNat k ≠ [])
          ∧ (∀ e ∈ results, ∃! k, (1 ≤ k ∧ k ≤ Paging.count (some ⟨1, size⟩) total)
              ∧ e ∈ s.onPage dataspace results size.toNat k)
          ∧ ∀ e ∈ results, ∀ e' ∈ results, e.1 = e'.1 → ∀ k,
              e ∈ s.onPage dataspace results size.toNat k
                ↔ e' ∈ s.onPage dataspace results size.toNat k) := by
  intro s
  have hs : s.Sound := sound_after history
  have hn : s.Numbered := numbered_after history
  have hnames : s.Named := named_after history
  refine ⟨fun hdeep => ⟨countOwners_of_not_fits hpath hdeep,
    fun _ hvalid => queryAcross_of_not_fits hpath hdeep fetch hvalid⟩, fun hfits => ?_⟩
  obtain ⟨rows, hrows⟩ := exists_select (readable_after hplain) hfits
  obtain ⟨results, hread⟩ : ∃ results, rows.mapM (fun r =>
      (s.node fetch r).map fun n => (s.ownerName r.owner, n)) = .ok results := by
    refine exists_mapM_eq_ok fun r hr => ?_
    obtain ⟨n, hnode⟩ := hplain.exists_node fetch (mem_of_select hrows r hr)
    exact ⟨_, map_eq_ok_iff.mpr ⟨n, hnode, rfl⟩⟩
  have hnamed := fun e he => exists_ownerNamed (e := e) hs hn hnames hrows hread he
  let first : Page := ⟨1, size⟩
  refine ⟨results, _, queryAcross_eq_ok_iff.mpr ⟨q, rows, hpath, hrows, hread⟩,
    countOwners_eq hs hn hnames hpath hrows hread, length_ownersNamed hs hn hnames hrows hread,
    rfl, ids_ownersNamed hn, fun index hindex hcount => ?_, fun k hk hcount => ?_,
    fun e he => ?_, fun e he e' he' hsame k => ?_⟩
  · have hlow := (le_count_iff (p := ⟨index, size⟩) hsize (UInt32.lt_iff_toNat_lt.mp hindex)).mp
      hcount
    have hlength : (s.ownersNamed dataspace results).length ≤ s.owners.length :=
      List.length_filter_le _ _
    exact queryAcross_page (p := ⟨index, size⟩) hs hn hnames hpath hrows hread
      (by simp [Page.isValid, hindex, hsize])
      (Nat.lt_of_lt_of_le hlow (Nat.le_trans hlength hfew))
  · have hlow := (le_count_iff (p := first) hsize hk).mp hcount
    obtain ⟨e, he, hname⟩ := List.mem_map.mp
      (Store.mem_ownersNamed.mp (List.getElem_mem hlow)).2.2
    refine List.ne_nil_of_mem
      ((mem_onPage_iff hnames he (List.getElem_mem hlow) hname.symm).mpr ?_)
    exact Page.mem_block_iff.mpr ⟨_, List.getElem?_eq_getElem hlow, Nat.le_refl _,
      Nat.lt_add_of_pos_right (UInt32.lt_iff_toNat_lt.mp hsize)⟩
  · obtain ⟨o, ho, hname⟩ := hnamed e he
    simp only [mem_onPage_iff hnames he ho hname]
    exact existsUnique_block (p := first) hsize (nodup_ownersNamed hn) ho
  · obtain ⟨o, ho, hname⟩ := hnamed e he
    rw [mem_onPage_iff hnames he ho hname, mem_onPage_iff hnames he' ho (hname.trans hsame)]

/-- Three owners of a dataspace who are stored to in another order than they were
created in, one of them with two nodes that are asked for.  A fourth
has none, and a fifth is in another dataspace. -/
theorem queryAcross_pages_of_three_owners :
    let leaf (path : String) : Node := .mk path [("n", .bool true)] []
    let tree : Node := .mk "/x" [] [("/x/y", leaf "/x/y")]
    let request := Operation.request .readWrite
    let history := [request (.createDataspace "d"), request (.createDataspace "e"),
      request (.createOwner ⟨1, "d"⟩ "a"), request (.createOwner ⟨1, "d"⟩ "b"),
      request (.createOwner ⟨1, "d"⟩ "c"), request (.createOwner ⟨1, "d"⟩ "f"),
      request (.createOwner ⟨2, "e"⟩ "a"), request (.write ⟨3, 1, "d", "c"⟩ (.store [tree])),
      request (.write ⟨5, 2, "e", "a"⟩ (.store [tree])),
      request (.write ⟨1, 1, "d", "a"⟩ (.store [tree, leaf "/y"])),
      request (.write ⟨2, 1, "d", "b"⟩ (.store [tree])),
      request (.write ⟨4, 1, "d", "f"⟩ (.store [leaf "/x"]))]
    let s := Store.empty.after history
    s.Plain ∧ s.owners.length ≤ Page.offsetBound
      ∧ ∃ results, s.queryAcross ⟨1, "d"⟩ "//y[@n='true']" .all none = .ok results
        ∧ results.map Prod.fst = ["c", "a", "a", "b"]
        ∧ s.countOwners ⟨1, "d"⟩ "//y[@n='true']" = .ok 3
        ∧ s.queryAcross ⟨1, "d"⟩ "//y[@n='true']" .all (some ⟨1, 2⟩)
          = .ok (s.onPage ⟨1, "d"⟩ results 2 1)
        ∧ (s.onPage ⟨1, "d"⟩ results 2 1).map Prod.fst = ["a", "a", "b"]
        ∧ s.queryAcross ⟨1, "d"⟩ "//y[@n='true']" .all (some ⟨2, 2⟩)
          = .ok (s.onPage ⟨1, "d"⟩ results 2 2)
        ∧ (s.onPage ⟨1, "d"⟩ results 2 2).map Prod.fst = ["c"] := by
  intro leaf tree request history s
  have hread : ((readSelector "//y[@n='true']").toOption.any fun q => q.fits (.dataspace 1))
      = true := by
    decide +kernel
  obtain ⟨hplain, hfew, htotal, hnames, hnamesFirst, hnamesLast⟩ :
      s.Plain ∧ s.owners.length ≤ Page.offsetBound
        ∧ (s.countOwners ⟨1, "d"⟩ "//y[@n='true']").toOption = some 3
        ∧ (s.queryAcross ⟨1, "d"⟩ "//y[@n='true']" .all none).toOption.map (List.map Prod.fst)
          = some ["c", "a", "a", "b"]
        ∧ (s.queryAcross ⟨1, "d"⟩ "//y[@n='true']" .all (some ⟨1, 2⟩)).toOption.map
          (List.map Prod.fst) = some ["a", "a", "b"]
        ∧ (s.queryAcross ⟨1, "d"⟩ "//y[@n='true']" .all (some ⟨2, 2⟩)).toOption.map
          (List.map Prod.fst) = some ["c"] := by
    decide +kernel
  obtain ⟨q, hq, hfits⟩ := (Option.any_eq_true _ _).mp hread
  obtain ⟨results, total, hall, hcount, -, -, -, hpages, -, -, -⟩ :=
    (queryAcross_pages .all 2 hplain hfew (toOption_eq_some_iff.mp hq) (by decide)).2 hfits
  obtain rfl : total = 3 := by
    rw [hcount] at htotal
    exact Option.some.inj htotal
  have hfirst := hpages 1 (by decide) (by decide)
  have hlast := hpages 2 (by decide) (by decide)
  exact ⟨hplain, hfew, results, hall, eq_of_toOption_map hall hnames, hcount,
    hfirst, eq_of_toOption_map hfirst hnamesFirst, hlast, eq_of_toOption_map hlast hnamesLast⟩

/-- Asked a thousand times whether it is one, a stored leaf is in no result and on no page, and
there is no count. -/
theorem queryAcross_unpaged :
    let request := Operation.request .readWrite
    let history := [request (.createDataspace "d"), request (.createOwner ⟨1, "d"⟩ "o"),
      request (.write ⟨1, 1, "d", "o"⟩ (.store [.mk "/a" [("x", .number (.integer 1))] []]))]
    let s := Store.empty.after history
    let place : Query := ⟨.absolute, [], "a", .filtered none none, none⟩
    let path := (place.repeating ⟨"x", .equal, .integer 1⟩ 999).normalized
    s.Plain ∧ (Query.parse path).toOption.isSome = true ∧ isRoot path = false
      ∧ s.countOwners ⟨1, "d"⟩ path = .error (.engine .deepExpression)
      ∧ s.queryAcross ⟨1, "d"⟩ path .nodeOnly none = .error (.engine .deepExpression)
      ∧ s.queryAcross ⟨1, "d"⟩ path .nodeOnly (some ⟨1, 1⟩)
        = .error (.engine .deepExpression) := by
  intro request history s place path
  let c : Condition := ⟨"x", .equal, .integer 1⟩
  have hsingle : (Query.parse "/a[@x=1]").toOption = some (place.repeating c 0) := by
    decide +kernel
  have hpath := parse_repeating (toOption_eq_some_iff.mp hsingle) 999
  have hready := readSelector_of_selector hpath
    (selector_repeating (q := place) (c := c) rfl rfl 999)
  have hdeep : (⟨place.repeating c 999, none⟩ : Selector).fits (.dataspace 1) = false :=
    not_fits_of_length (Nat.le_of_eq (length_conditionList_repeating place c 999).symm) _ _
  have hplain : s.Plain := by decide +kernel
  refine ⟨hplain, ?_, isRoot_of_parse hpath, countOwners_of_not_fits hready hdeep, ?_, ?_⟩
  · rw [toOption_eq_some_iff.mpr hpath]
    rfl
  · exact queryAcross_of_not_fits hready hdeep .nodeOnly rfl
  · exact queryAcross_of_not_fits hready hdeep .nodeOnly rfl

end DataTree
