import DataTree.Fetch
import DataTree.Path.Match
import DataTree.Store.Tables

/-!
# Looking nodes up by their paths

A path names the row stored at it, or every element of the list it names.
Elements of the list `/a/b` have paths between `/a/b[@` and `/a/b[A`, so only
the paths of that range are matched in full.

A node is read from its row and from the rows that hang under it, as deep as
asked for.

## Main definitions

* `liesAt` — whether a row belongs to a lookup.
* `Store.node` — the node of a row.
* `Store.get`, `Store.getMany` — lookups of one path and of many.
-/

namespace DataTree

/-! ## Rows of a path -/

/-- Whether a stored path is the canonical path `target`, or that of an
element of the list `target`. -/
def liesAt (target path : String) : Bool :=
  path = target
    || (target ++ "[@" ≤ path && path < target ++ "[A" && Path.pathMatches path target false)

/-- The canonical form of a path, if it is one of a node: neither the root
marker nor malformed. -/
def nodePath? (path : String) : Option String :=
  if Path.isRoot path then none else (Path.normalize path).toOption

namespace Store

/-- The rows of an owner at a canonical path. -/
def rowsAt (s : Store) (owner : Nat) (target : String) : List Row :=
  s.rows.filter fun r => r.owner = owner && liesAt target r.path

/-- The rows of an owner at any of several paths: the root marker stands for
the roots of the trees, and malformed paths for nothing. -/
def rowsAtAny (s : Store) (owner : Nat) (paths : List String) : List Row :=
  let roots := paths.any Path.isRoot
  let targets := paths.filterMap nodePath?
  s.rows.filter fun r =>
    r.owner = owner && ((roots && r.parent.isNone) || targets.any fun t => liesAt t r.path)

end Store

/-! ## Nodes of rows -/

/-- The node of a row, with the nodes below it. -/
def assemble (r : Row) (children : List Node) : Outcome Node :=
  match Leaves.parse r.attributes with
  | none => .error .unreadableLeaves
  | some leaves => .ok ((Node.mk r.path leaves []).addChildren children)

/-- The nodes of the rows that hang under a row, each read to depth `fetch`. -/
def childNodes (fetch : Fetch) (parent : Nat) : List Row → Outcome (List Node)
  | [] => .ok []
  | r :: rest =>
    if r.parent = some parent then do
      let children ← if fetch.hasNext then childNodes fetch.next r.id rest else .ok []
      let node ← assemble r children
      let more ← childNodes fetch parent rest
      return node :: more
    else childNodes fetch parent rest

namespace Store

/-- The node of a row, read to depth `fetch`. -/
def node (s : Store) (fetch : Fetch) (r : Row) : Outcome Node := do
  let children ← if fetch.hasNext then childNodes fetch.next r.id s.rows else .ok []
  assemble r children

/-- The nodes of rows in order. -/
def nodes (s : Store) (fetch : Fetch) (rows : List Row) : Outcome (List Node) :=
  rows.mapM (s.node fetch)

/-! ## Lookups -/

/-- The nodes of an owner at any of several paths, in the order they were
stored.  Paths that are malformed or name nothing add nothing. -/
def getMany (s : Store) (owner : Owner) (paths : List String) (fetch : Fetch) :
    Outcome (List Node) :=
  s.nodes fetch (s.rowsAtAny owner.id paths)

/-- The nodes of an owner at a path; there has to be one. -/
def get (s : Store) (owner : Owner) (path : String) (fetch : Fetch) : Outcome (List Node) := do
  let _ ← (Path.normalize path).mapError .badPath
  match ← s.getMany owner [path] fetch with
  | [] => .error (.nodeNotFound owner.name path)
  | nodes => return nodes

/-- The row of an owner at exactly the path given. -/
def rowNamed (s : Store) (owner : Owner) (path : String) : Outcome Row := do
  let target ← (Path.normalize path).mapError .badPath
  match s.rowAt? owner.id target with
  | some r => return r
  | none => .error (.nodeNotFound owner.name path)

end Store

end DataTree
