import DataTree.Proofs.Store.Pages
import DataTree.Proofs.Store.Selectors

/-!
# Queries of readable stores

Where all leaves can be read, a query picks rows of the table: those that its path
names and whose leaves it admits.  It is refused before anything is read if it cannot be
made ready to run or its statement nests too deep.

## Main results

* `select_of_readable` — the rows of a query without an axis.
* `exists_nodes` — the nodes of rows of a plain store can be read.
-/

namespace DataTree

open DataTree.Path

/-! ## Rows of a query -/

section

variable {s : Store}

/-- A query without an axis picks the rows that its path names and whose leaves it
admits. -/
theorem select_of_readable (hread : ∀ r ∈ s.rows, (storedDocument? r.attributes).isSome = true)
    {scope : Scope} {q : Query} (hfits : (⟨q, none⟩ : Selector).fits scope = true) :
    s.select scope ⟨q, none⟩ = .ok ((s.rows.filter (isNamed s scope q)).filter q.admitsRow) := by
  rw [Store.select_of_fits s hfits, Store.pick,
    filterByLeaves_of_readable hread _ fun r hr => (List.mem_filter.mp hr).1]
  rfl

/-- A query with an axis picks those of the rows nearest above these that the target
admits. -/
theorem select_axis_of_readable
    (hread : ∀ r ∈ s.rows, (storedDocument? r.attributes).isSome = true) {scope : Scope}
    {q a : Query} (hfits : (⟨q, some a⟩ : Selector).fits scope = true) :
    s.select scope ⟨q, some a⟩
      = .ok ((nearestAbove s (fun r => pathMatches r.path (a.descendantName.getD "") true)
        ((s.rows.filter (isNamed s scope q)).filter q.admitsRow)).filter a.admitsRow) := by
  rw [Store.select_of_fits s hfits, Store.pick,
    filterByLeaves_of_readable hread _ fun r hr => (List.mem_filter.mp hr).1]
  exact filterByLeaves_of_readable hread a fun r hr => (List.mem_filter.mp hr).1

/-- The nodes of rows of a plain store can be read. -/
theorem exists_nodes (hplain : s.Plain) (fetch : Fetch) {rows : List Row}
    (hrows : ∀ r ∈ rows, r ∈ s.rows) :
    ∃ nodes, s.nodes fetch rows = .ok nodes ∧ nodes.map Node.path = rows.map Row.path := by
  obtain ⟨nodes, hnodes⟩ := exists_mapM_eq_ok fun r hr => hplain.exists_node fetch (hrows r hr)
  exact ⟨nodes, hnodes, map_path_of_mapM_node hnodes⟩

end

end DataTree
