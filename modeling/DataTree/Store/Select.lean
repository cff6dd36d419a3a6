import DataTree.Json.Relaxed
import DataTree.Page
import DataTree.Store.LeafValue
import DataTree.Store.Lookup
import DataTree.Store.Statement

/-!
# Queries

A query selects rows by their paths and by their leaves.  An absolute query
also fixes the parent of the rows; an ancestor axis replaces each row
selected by the nearest row above it that has the path asked for.

Leaves are read only where a query has conditions on them, and then every
row that its path selects has to be readable.  A query with so many conditions
that its statement nests too deep selects nothing, whatever is stored.

## Main definitions

* `Selector.fits` — whether the engine takes the statement of a query.
* `Store.pick` — the rows that match a query.
* `Store.select` — the rows of a query, unless the engine refuses it.
* `Store.query`, `Store.queryAcross` — the nodes of a query, for one owner and
  for all owners of a dataspace.
-/

namespace DataTree

open DataTree.Path

/-! ## Checking a query -/

/-- The first condition that orders by a quoted value. -/
def Path.Condition.isTextOrder (c : Condition) : Bool :=
  match c.value with
  | .text _ => c.comparison ≠ .equal
  | .integer _ => false

/-- Refuses conditions that order by a quoted value. -/
def checkConditions : List Condition → Except PathError Unit
  | [] => .ok ()
  | c :: rest =>
    if c.isTextOrder then .error (.textComparison c.leaf c.comparison) else checkConditions rest

/-- The conditions of a query in order. -/
def Path.Query.conditionList (q : Query) : List Condition :=
  match q.conditions with
  | none => []
  | some g => g.first :: g.rest.map (·.2)

/-- A query ready to run, with the query for its ancestors if it asks for
them. -/
structure Selector where
  query : Query
  ancestor : Option Query

/-- Whether no expression of a query nests too deep for the engine. -/
def Selector.fits (q : Selector) (scope : Scope) : Bool :=
  (q.query.statement q.ancestor scope).all Shape.fits

/-- Makes a query ready to run, unless one of its conditions orders by a
quoted value. -/
def Path.Query.selector (q : Query) : Except PathError Selector := do
  checkConditions q.conditionList
  match q.ancestorQuery with
  | none => return ⟨q, none⟩
  | some found =>
    let ancestor ← found
    checkConditions ancestor.conditionList
    return ⟨q, some ancestor⟩

/-- Reads a path as a query ready to run. -/
def readSelector (path : String) : Outcome Selector :=
  (Query.parse path >>= Query.selector).mapError .badPath

/-! ## Rows by path -/

/-- Whether a query covers an owner. -/
def Scope.covers (s : Store) (scope : Scope) (owner : Nat) : Bool :=
  match scope with
  | .owner id => owner = id
  | .dataspace id => s.owners.any fun o => o.id = owner && o.dataspaceId = id
  | .owners ids => ids.contains owner

/-- Whether the parent of a row has the path `parent`, which is empty for the
roots of trees.  Over many owners any row at that path will do, since a
parent always has the owner of its children. -/
def hasParentAt (s : Store) (scope : Scope) (parent : String) (r : Row) : Bool :=
  if parent = "" then r.parent.isNone
  else
    match scope with
    | .owner id => (s.rowAt? id parent).any fun p => r.parent = some p.id
    | .dataspace _ | .owners _ => s.rows.any fun p => p.path = parent && r.parent = some p.id

/-- Whether the path of a row is one that a query asks for. -/
def isNamed (s : Store) (scope : Scope) (q : Query) (r : Row) : Bool :=
  scope.covers s r.owner
    && (match q.descendantName with
      | none => pathMatches r.path q.address false && hasParentAt s scope q.parentAddress r
      | some name => pathMatches r.path name true)

/-! ## Rows by leaves -/

/-- Arrays and objects nest at most this deep in stored leaves. -/
def storedNesting : Nat := 1000

/-- The document of stored leaves, as queries read it: strictly or, where
that fails, relaxed. -/
def storedDocument? (attributes : String) : Option Document :=
  (Document.parse attributes <|> Document.parseRelaxed attributes).filter fun d =>
    d.depth ≤ storedNesting

/-- Whether a query asks for leaves at all. -/
def Path.Query.readsLeaves (q : Query) : Bool :=
  q.conditions.isSome || q.leafText.isSome || q.contains.isSome

/-- Whether leaves are what a query asks for. -/
def Path.Query.admits (q : Query) (d : Document) : Bool :=
  (q.conditions.all fun g => g.holds d) && (q.leafText.all fun t => t.isText d)
    && (q.contains.all fun t => t.isContained d)

/-- The rows whose leaves are what a query asks for. -/
def filterByLeaves (q : Query) (rows : List Row) : Outcome (List Row) :=
  if !q.readsLeaves then .ok rows
  else do
    let kept ← rows.mapM fun r =>
      match storedDocument? r.attributes with
      | none => .error (.engine .malformedText)
      | some d => .ok (if q.admits d then some r else none)
    return kept.filterMap id

/-! ## Ancestors -/

/-- The nearest row with `p` among a row named by its id and the rows above
it; `rows` holds the latest first. -/
def nearest (p : Row → Bool) (start : Option Nat) : List Row → Option Row
  | [] => none
  | r :: rest =>
    if start = some r.id then if p r then some r else nearest p r.parent rest
    else nearest p start rest

/-- The rows with `p` that are nearest above one of some rows, each once. -/
def nearestAbove (s : Store) (p : Row → Bool) (rows : List Row) : List Row :=
  let latest := s.rows.reverse
  let found := rows.filterMap fun r => (nearest p r.parent latest).map Row.id
  s.rows.filter fun r => found.contains r.id

namespace Store

/-- The rows that match a query, in the order of their ids. -/
def pick (s : Store) (scope : Scope) (q : Selector) : Outcome (List Row) := do
  let rows ← filterByLeaves q.query (s.rows.filter (isNamed s scope q.query))
  match q.ancestor with
  | none => return rows
  | some a =>
    let isTarget (r : Row) := pathMatches r.path (a.descendantName.getD "") true
    filterByLeaves a (nearestAbove s isTarget rows)

/-- The rows that a query selects, unless its statement nests too deep. -/
def select (s : Store) (scope : Scope) (q : Selector) : Outcome (List Row) :=
  if q.fits scope then s.pick scope q else .error (.engine .deepExpression)

theorem select_of_fits (s : Store) {scope : Scope} {q : Selector} (h : q.fits scope = true) :
    s.select scope q = s.pick scope q := if_pos h

/-- What is stored does not matter to a statement that nests too deep. -/
theorem select_of_not_fits (s : Store) {scope : Scope} {q : Selector}
    (h : q.fits scope = false) : s.select scope q = .error (.engine .deepExpression) := by
  rw [select, h, if_neg Bool.false_ne_true]

theorem select_congr {s t : Store} {scope : Scope} {q : Selector}
    (h : s.pick scope q = t.pick scope q) : s.select scope q = t.select scope q := by
  rw [select, select, h]

theorem select_eq_ok_iff {s : Store} {scope : Scope} {q : Selector} {rows : List Row} :
    s.select scope q = .ok rows ↔ q.fits scope = true ∧ s.pick scope q = .ok rows := by
  rw [select]
  split <;> simp [*]

/-! ## Nodes of a query -/

/-- The nodes of an owner that a path asks for; the root marker asks for the
trees. -/
def query (s : Store) (owner : Owner) (path : String) (fetch : Fetch) : Outcome (List Node) :=
  if isRoot path then s.getMany owner [rootPath] fetch
  else do
    let q ← readSelector path
    s.nodes fetch (← s.select (.owner owner.id) q)

/-- The owners that rows belong to, in the order they were created. -/
def ownersOf (s : Store) (rows : List Row) : List OwnerRow :=
  s.owners.filter fun o => rows.any fun r => r.owner = o.id

/-- The owners of a page of a dataspace with a node that a query selects. -/
def ownersOnPage (s : Store) (dataspace : Dataspace) (q : Selector) (page : Page) :
    Outcome (List OwnerRow) := do
  let rows ← s.select (.dataspace dataspace.id) q
  return page.select (s.ownersOf rows)

/-- The owners that a read in pages covers. -/
def pageScope (s : Store) (dataspace : Dataspace) (q : Selector) :
    Paging → Outcome Scope
  | none => .ok (.dataspace dataspace.id)
  | some page => do
    let owners ← s.ownersOnPage dataspace q page
    return .owners (owners.map OwnerRow.id)

/-- The name of an owner. -/
def ownerName (s : Store) (id : Nat) : String :=
  ((s.owners.find? fun o => o.id = id).map OwnerRow.name).getD ""

/-- The nodes that a path asks for among all owners of a dataspace, each with
the name of its owner. -/
def queryAcross (s : Store) (dataspace : Dataspace) (path : String) (fetch : Fetch)
    (paging : Paging) : Outcome (List (String × Node)) :=
  if !paging.isValid then .error (.invalidRequest paging.fault)
  else do
    let q ← readSelector path
    let scope ← s.pageScope dataspace q paging
    let rows ← s.select scope q
    rows.mapM fun r => do
      let n ← s.node fetch r
      return (s.ownerName r.owner, n)

/-- How many owners of a dataspace have a node that a path asks for. -/
def countOwners (s : Store) (dataspace : Dataspace) (path : String) : Outcome Nat := do
  let q ← readSelector path
  let rows ← s.select (.dataspace dataspace.id) q
  return (s.ownersOf rows).length

end Store

end DataTree
