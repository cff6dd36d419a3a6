import DataTree.Proofs.Store.Pages

/-!
# Pages past the last one

As many owners come before a page past the last one as there are owners that match, so
nothing is left for it.  The offset of a page is a product of two numbers of 32 bits, and
from 2⁶³ on it counts as none: a page as far out as that is the first page once more.

## Main definitions

* `Store.rowsOnPage` — the rows among those selected that a page shows.

## Main results

* `Page.select_of_wrapped`, `Page.select_eq_nil_iff` — far pages of a list.
* `queryAcross_eq_rowsOnPage` — what a page shows.
* `queryAcross_past_last` — which pages past the last one are empty.
-/

namespace DataTree

open DataTree.Path

/-! ## Far pages of a list -/

namespace Page

variable {p : Page}

theorem isValid_iff : p.isValid = true ↔ 0 < p.index.toNat ∧ 0 < p.size.toNat := by
  rw [isValid, Bool.and_eq_true, decide_eq_true_eq, decide_eq_true_eq, UInt32.lt_iff_toNat_lt,
    UInt32.lt_iff_toNat_lt]
  rfl

/-- An offset counts as none only if neither the number of the page nor its size is small. -/
theorem offset_lt_of_small (h : p.index.toNat ≤ 2 ^ 31 ∨ p.size.toNat ≤ 2 ^ 31) :
    p.offset < offsetBound := by
  have hindex := p.index.toNat_lt
  have hsize := p.size.toNat_lt
  have hbound : offsetBound = 2 ^ 63 := by decide
  rw [offset, hbound]
  rcases h with h | h
  · calc (p.index.toNat - 1) * p.size.toNat ≤ (2 ^ 31 - 1) * 2 ^ 32 :=
          Nat.mul_le_mul (by omega) (by omega)
      _ < 2 ^ 63 := by decide
  · calc (p.index.toNat - 1) * p.size.toNat ≤ (2 ^ 32 - 2) * 2 ^ 31 :=
          Nat.mul_le_mul (by omega) h
      _ < 2 ^ 63 := by decide

/-- A page whose offset counts as none is the first page. -/
theorem select_of_wrapped {α : Type} (h : ¬p.offset < offsetBound) (xs : List α) :
    p.select xs = (⟨1, p.size⟩ : Page).select xs := by
  have hfirst : (⟨1, p.size⟩ : Page).offset = 0 := Nat.zero_mul _
  rw [select, select, if_neg h, hfirst, if_pos (by decide)]

/-- A page is empty if its offset counts and leaves nothing, or if there is nothing at all. -/
theorem select_eq_nil_iff {α : Type} (hvalid : p.isValid = true) {xs : List α}
    (hpast : xs.length ≤ p.offset) : p.select xs = [] ↔ p.offset < offsetBound ∨ xs = [] := by
  have hsize := (isValid_iff.mp hvalid).2
  rw [select]
  split
  · rename_i hoffset
    simp [hoffset, List.drop_eq_nil_of_le hpast]
  · rename_i hoffset
    rw [List.drop_zero, List.take_eq_nil_iff]
    simp only [hoffset, false_or]
    exact or_iff_right (Nat.pos_iff_ne_zero.mp hsize)

/-- Pages past those that are counted have all members before them. -/
theorem le_offset_of_past {total : Nat} (hvalid : p.isValid = true)
    (hpast : Paging.count (some p) total < p.index.toNat) : total ≤ p.offset := by
  obtain ⟨hindex, hsize⟩ := isValid_iff.mp hvalid
  rw [offset]
  refine Nat.not_lt.mp fun hlt => Nat.not_le.mpr hpast ?_
  exact (le_count_iff (UInt32.lt_iff_toNat_lt.mpr hsize) hindex).mpr hlt

end Page

/-! ## What a page shows -/

/-- The rows among those selected that belong to the owners on a page. -/
def Store.rowsOnPage (s : Store) (p : Page) (rows : List Row) : List Row :=
  rows.filter fun r => ((p.select (s.ownersOf rows)).map OwnerRow.id).contains r.owner

section

variable {s : Store} {dataspace : Dataspace} {path : String} {p : Page}

theorem exists_row_of_mem_select {rows : List Row} {o : OwnerRow}
    (ho : o ∈ p.select (s.ownersOf rows)) : ∃ r ∈ rows, r.owner = o.id := by
  obtain ⟨-, hmatch⟩ := List.mem_filter.mp (List.mem_of_mem_drop (List.mem_of_mem_take ho))
  obtain ⟨r, hr, howner⟩ := List.any_eq_true.mp hmatch
  exact ⟨r, hr, of_decide_eq_true howner⟩

theorem countOwners_eq_ok_iff {total : Nat} :
    s.countOwners dataspace path = .ok total ↔
      ∃ q rows, readSelector path = .ok q ∧ s.select (.dataspace dataspace.id) q = .ok rows
        ∧ total = (s.ownersOf rows).length := by
  show (readSelector path >>= fun q => s.select (.dataspace dataspace.id) q >>= fun rows =>
    pure (s.ownersOf rows).length) = _ ↔ _
  simp only [bind_eq_ok_iff]
  constructor
  · rintro ⟨q, hq, rows, hrows, hlength⟩
    exact ⟨q, rows, hq, hrows, (Except.ok.inj hlength).symm⟩
  · rintro ⟨q, rows, hq, hrows, rfl⟩
    exact ⟨q, hq, rows, hrows, rfl⟩

variable {q : Selector} {rows : List Row} (hs : s.Sound) (hpath : readSelector path = .ok q)
  (hrows : s.select (.dataspace dataspace.id) q = .ok rows)

include hs hpath hrows

/-- A page shows the nodes of the rows selected that belong to its owners. -/
theorem queryAcross_eq_rowsOnPage (fetch : Fetch) (hvalid : p.isValid = true) :
    s.queryAcross dataspace path fetch (some p)
      = (s.rowsOnPage p rows).mapM fun r =>
        (s.node fetch r).map fun n => (s.ownerName r.owner, n) := by
  have hscope : s.pageScope dataspace q (some p)
      = .ok (.owners ((p.select (s.ownersOf rows)).map OwnerRow.id)) := by
    rw [Store.pageScope, Store.ownersOnPage, hrows]
    rfl
  have hids : ∀ id ∈ (p.select (s.ownersOf rows)).map OwnerRow.id,
      (Scope.dataspace dataspace.id).covers s id = true := by
    intro id hid
    obtain ⟨o, ho, rfl⟩ := List.mem_map.mp hid
    obtain ⟨r, hr, howner⟩ := exists_row_of_mem_select ho
    obtain ⟨o', ho', hid', hdataspace⟩ := covered_of_select hs hrows hr
    exact covers_dataspace_iff.mpr ⟨o', ho', hid'.trans howner, hdataspace⟩
  rw [Store.queryAcross, Paging.isValid, hvalid, hpath]
  show (s.pageScope dataspace q (some p) >>= fun scope => s.select scope q >>= _) = _
  rw [hscope]
  show (s.select (.owners ((p.select (s.ownersOf rows)).map OwnerRow.id)) q >>= _) = _
  rw [select_owners hs hids hrows]
  exact mapM_congr fun r _ => bind_pure_eq_map (s.node fetch r) _

/-- A page shows nothing exactly if no owner is on it. -/
theorem queryAcross_eq_nil_iff (fetch : Fetch) (hvalid : p.isValid = true) :
    s.queryAcross dataspace path fetch (some p) = .ok [] ↔ p.select (s.ownersOf rows) = [] := by
  rw [queryAcross_eq_rowsOnPage hs hpath hrows fetch hvalid]
  constructor
  · intro hread
    by_contra hne
    obtain ⟨o, ho⟩ := List.exists_mem_of_ne_nil _ hne
    obtain ⟨r, hr, howner⟩ := exists_row_of_mem_select ho
    have hshown : r ∈ s.rowsOnPage p rows := by
      refine List.mem_filter.mpr ⟨hr, List.contains_iff_mem.mpr ?_⟩
      rw [howner]
      exact List.mem_map_of_mem ho
    obtain ⟨e, he, -⟩ := exists_of_mem_of_mapM hread hshown
    cases he
  · intro hnil
    have hrowsNil : s.rowsOnPage p rows = [] := by
      rw [Store.rowsOnPage, hnil]
      exact List.filter_eq_nil_iff.mpr fun r _ => Bool.false_ne_true
    rw [hrowsNil]
    rfl

end

/-! ## Pages past the last one -/

/-- Whatever operations have been run, a page past the last of those that hold the owners
counted is empty exactly if its offset counts or no owner matches.  So it is if its number or
its size is at most 2³¹; any other page past the last one can be the first page again. -/
theorem queryAcross_past_last {history : List Operation} {dataspace : Dataspace} {path : String}
    {total : Nat} (fetch : Fetch) {p : Page} (hvalid : p.isValid = true)
    (htotal : (Store.empty.after history).countOwners dataspace path = .ok total)
    (hpast : Paging.count (some p) total < p.index.toNat) :
    let s := Store.empty.after history
    (s.queryAcross dataspace path fetch (some p) = .ok []
        ↔ p.offset < Page.offsetBound ∨ total = 0)
      ∧ (p.index.toNat ≤ 2 ^ 31 ∨ p.size.toNat ≤ 2 ^ 31 →
        s.queryAcross dataspace path fetch (some p) = .ok [])
      ∧ (¬p.offset < Page.offsetBound →
        s.queryAcross dataspace path fetch (some p)
          = s.queryAcross dataspace path fetch (some ⟨1, p.size⟩)) := by
  intro s
  have hs : s.Sound := sound_after history
  obtain ⟨q, rows, hpath, hrows, rfl⟩ := countOwners_eq_ok_iff.mp htotal
  have hempty : s.queryAcross dataspace path fetch (some p) = .ok []
      ↔ p.offset < Page.offsetBound ∨ (s.ownersOf rows).length = 0 := by
    rw [queryAcross_eq_nil_iff hs hpath hrows fetch hvalid,
      Page.select_eq_nil_iff hvalid (Page.le_offset_of_past hvalid hpast), List.length_eq_zero_iff]
  refine ⟨hempty, fun hsmall => hempty.mpr (.inl (Page.offset_lt_of_small hsmall)),
    fun hwrapped => ?_⟩
  have hfirst : (⟨1, p.size⟩ : Page).isValid = true :=
    Page.isValid_iff.mpr ⟨Nat.one_pos, (Page.isValid_iff.mp hvalid).2⟩
  rw [queryAcross_eq_rowsOnPage hs hpath hrows fetch hvalid,
    queryAcross_eq_rowsOnPage hs hpath hrows fetch hfirst, Store.rowsOnPage, Store.rowsOnPage,
    Page.select_of_wrapped hwrapped]

/-- The second of the pages that hold one owner each, of one owner that matches, and a page
so far out that its offset counts as none. -/
theorem queryAcross_past_last_of_one_owner :
    let request := Operation.request .readWrite
    let history := [request (.createDataspace "d"), request (.createOwner ⟨1, "d"⟩ "o"),
      request (.write ⟨1, 1, "d", "o"⟩ (.store [.leafless "/a"]))]
    let s := Store.empty.after history
    let far : Page := ⟨2147483650, 4294967295⟩
    s.countOwners ⟨1, "d"⟩ "/a" = .ok 1
      ∧ s.queryAcross ⟨1, "d"⟩ "/a" .all (some ⟨2, 1⟩) = .ok []
      ∧ far.isValid = true ∧ Paging.count (some far) 1 < far.index.toNat
      ∧ s.queryAcross ⟨1, "d"⟩ "/a" .all (some far)
        = s.queryAcross ⟨1, "d"⟩ "/a" .all (some ⟨1, far.size⟩)
      ∧ s.queryAcross ⟨1, "d"⟩ "/a" .all (some far) ≠ .ok [] := by
  intro request history s far
  have hcount : (s.countOwners ⟨1, "d"⟩ "/a").toOption = some 1 := by decide +kernel
  rw [toOption_eq_some_iff] at hcount
  have hsecond := queryAcross_past_last .all (p := ⟨2, 1⟩) (by decide) hcount (by decide)
  have hfar := queryAcross_past_last .all (p := far) (by decide) hcount (by decide)
  refine ⟨hcount, hsecond.2.1 (.inl (by decide)), by decide, by decide,
    hfar.2.2 (by decide), fun hempty => ?_⟩
  rcases hfar.1.mp hempty with hoffset | hnone
  · revert hoffset
    decide
  · cases hnone

/-- The page of the greatest number and size is past the only page, and is not empty. -/
theorem queryAcross_past_last_shown :
    let request := Operation.request .readWrite
    let history := [request (.createDataspace "d"), request (.createOwner ⟨1, "d"⟩ "o"),
      request (.write ⟨1, 1, "d", "o"⟩ (.store [.leafless "/a"]))]
    let s := Store.empty.after history
    let last : Page := ⟨4294967295, 4294967295⟩
    last.isValid = true ∧ (s.countOwners ⟨1, "d"⟩ "/a").toOption = some 1
      ∧ Paging.count (some last) 1 < last.index.toNat
      ∧ (s.queryAcross ⟨1, "d"⟩ "/a" .nodeOnly (some last)).toOption.map
        (List.map fun e => (e.1, e.2.path)) = some [("o", "/a")] := by
  decide +kernel

end DataTree
