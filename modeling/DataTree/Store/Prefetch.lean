import DataTree.Store.Lookup

/-!
# Reading many rows at once

The rows below several rows are gathered together before any node is put
together: one pass collects the rows within reach, each with the depths at
which it is reached, and a row may be reached from more than one of the rows
asked for.  The nodes are then read from the rows gathered and nothing else.

## Main definitions

* `Fetch.limit` — the number of levels that a read goes down.
* `reach` — the ids within reach, with their depths.
* `Store.gathered` — the rows within reach.
* `Store.materialize` — the nodes of rows, read from the rows gathered.
-/

namespace DataTree

/-- The number of levels that a read goes down, unless it is unbounded. -/
def Fetch.limit (f : Fetch) : Option Nat := f.maxDepth.map UInt32.toNat

/-- The ids of rows at most `limit` levels below the rows `asked`, with the
depths at which they are reached, as far as the rows given reach on from those
`found` before.  A parent comes before its children. -/
def reach (limit : Option Nat) (asked : List Nat) :
    List (Nat × Nat) → List Row → List (Nat × Nat)
  | found, [] => found
  | found, r :: rest =>
    let start := if asked.contains r.id then [(r.id, 0)] else []
    let below := (found.filter fun f => r.parent = some f.1 && limit.all fun l => f.2 < l).map
      fun f => (r.id, f.2 + 1)
    reach limit asked (found ++ start ++ below) rest

namespace Store

/-- The rows asked for and those below them, as deep as they are read. -/
def gathered (s : Store) (fetch : Fetch) (rows : List Row) : List Row :=
  if !fetch.hasNext || rows.isEmpty then rows
  else
    let found := reach fetch.limit (rows.map Row.id) [] s.rows
    s.rows.filter fun r => (found.map Prod.fst).contains r.id

/-- The nodes of rows in order, read from the rows gathered. -/
def materialize (s : Store) (fetch : Fetch) (rows : List Row) : Outcome (List Node) :=
  ({ s with rows := s.gathered fetch rows } : Store).nodes fetch rows

end Store

end DataTree
