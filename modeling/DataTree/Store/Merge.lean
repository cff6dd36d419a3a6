import DataTree.Store.Prefetch

/-!
# Looking many paths up one by one

The rows of many paths are found with one range read for each canonical path,
in the order of these paths.  What the reads find is merged into a map from
row ids, so a row found more than once is kept once and the rows come out in
the order of their ids.

## Main definitions

* `Row.mergeAll` — rows merged into those found before.
* `Store.rowsInTurn`, `Store.getInTurn` — a lookup of many paths.
-/

namespace DataTree

/-! ## Maps from ids -/

/-- Rows in the order of their ids with one more, in place of one of its id. -/
def Row.merge (r : Row) : List Row → List Row
  | [] => [r]
  | q :: rest =>
    if r.id < q.id then r :: q :: rest
    else if r.id = q.id then r :: rest
    else q :: Row.merge r rest

/-- Rows in the order of their ids with more of them. -/
def Row.mergeAll (found more : List Row) : List Row :=
  more.foldl (fun rows r => Row.merge r rows) found

namespace Store

/-! ## Lookups -/

/-- The rows of an owner at any of several paths, each canonical path read on
its own. -/
def rowsInTurn (s : Store) (owner : Nat) (paths : List String) : List Row :=
  let roots := if paths.any Path.isRoot then s.childRows owner none else []
  (TextSet.ofList (paths.filterMap nodePath?)).foldl
    (fun found target => Row.mergeAll found (s.rowsAt owner target)) (Row.mergeAll [] roots)

/-- The nodes of an owner at any of several paths.  Nothing is read if all of
them are malformed. -/
def getInTurn (s : Store) (owner : Owner) (paths : List String) (fetch : Fetch) :
    Outcome (List Node) :=
  if !paths.any Path.isRoot && (TextSet.ofList (paths.filterMap nodePath?)).isEmpty then .ok []
  else s.materialize fetch (s.rowsInTurn owner.id paths)

end Store

end DataTree
