import DataTree.Store.Edit

/-!
# Reconciling stored subtrees with drafts

The edits that turn a stored subtree into a draft.  Leaves are written
only if they differ as values; children are matched by their paths, those
without a match are inserted whole, and stored children that the draft lacks
are removed.  So a subtree that equals its draft needs no edit.

## Main definitions

* `reconcile` — the edits for one row.
* `reconcileChildren` — the edits for the rows under one parent.
-/

namespace DataTree

/-- The edit that gives a row the leaves of a draft, unless it has them. -/
def leafEdits (r : Row) (attributes : String) : Outcome (List Edit) :=
  match Leaves.parse r.attributes, Leaves.parse attributes with
  | some old, some new =>
    .ok (if Leaves.same old new then [] else [.update r.id r.path r.attributes attributes])
  | _, _ => .error .unreadableLeaves

/-- The removal of rows in the order of their paths. -/
def removeEdits (rows : List Row) : List Edit :=
  (Keyed.ofList (rows.map fun r => (r.path, r.id))).map fun e => .remove e.2 e.1

mutual
/-- The edits that turn the subtree at a row into a draft; `rows` are all
rows there are. -/
def reconcile (rows : List Row) (r : Row) : Draft → Outcome (List Edit)
  | .mk _ attributes children => do
    let own ← leafEdits r attributes
    let below ← reconcileChildren rows (some r.id)
      (rows.filter fun c => c.parent = some r.id) children
    return own ++ below

/-- The edits that turn the rows `stored` under a parent into drafts. -/
def reconcileChildren (rows : List Row) (parent : Option Nat) (stored : List Row) :
    List Draft → Outcome (List Edit)
  | [] => .ok (removeEdits stored)
  | d :: rest => do
    let own ←
      match stored.find? fun r => r.path = d.path with
      | some r => reconcile rows r d
      | none => .ok [.insert parent d]
    let more ← reconcileChildren rows parent (stored.filter fun r => r.path ≠ d.path) rest
    return own ++ more
end

end DataTree
