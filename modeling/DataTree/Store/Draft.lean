import DataTree.Store.Error

/-!
# Drafts of rows

Before a tree is stored it is turned into drafts: every path in canonical
form and every node's leaves as text.  The root marker of a tree has no row,
so it stands for its children.

## Main definitions

* `Node.drafts` — the drafts of a tree, if it is well formed.
-/

namespace DataTree

/-- A node about to be stored, with everything below it. -/
inductive Draft where
  | mk (path : String) (attributes : String) (children : List Draft)
  deriving Repr, Inhabited

namespace Draft

def path : Draft → String
  | mk path _ _ => path

def attributes : Draft → String
  | mk _ attributes _ => attributes

def children : Draft → List Draft
  | mk _ _ children => children

mutual
/-- Number of rows the draft takes up. -/
def size : Draft → Nat
  | mk _ _ children => 1 + sizeOfAll children

def sizeOfAll : List Draft → Nat
  | [] => 0
  | d :: rest => size d + sizeOfAll rest
end

mutual
/-- The draft of a node; its own path is checked before those below it. -/
def ofNode : Node → Except Path.PathError Draft
  | .mk path leaves children =>
    match Path.normalize path with
    | .error e => .error e
    | .ok normalized =>
      match ofNodes children with
      | .error e => .error e
      | .ok drafts => .ok (mk normalized leaves.text drafts)

/-- The drafts of children in the order of their keys. -/
def ofNodes : List (String × Node) → Except Path.PathError (List Draft)
  | [] => .ok []
  | (_, n) :: rest =>
    match ofNode n with
    | .error e => .error e
    | .ok d =>
      match ofNodes rest with
      | .error e => .error e
      | .ok ds => .ok (d :: ds)
end

end Draft

namespace Node

/-- The drafts that a tree stands for. -/
def drafts (n : Node) : Outcome (List Draft) :=
  match n.validate with
  | .error defect => .error (.invalidNode defect)
  | .ok _ =>
    if Path.isRoot n.path then
      if n.leaves.isEmpty then (Draft.ofNodes n.keyedChildren).mapError .badPath
      else .error (.invalidRequest "the root marker cannot carry leaves")
    else ((Draft.ofNode n).map fun d => [d]).mapError .badPath

/-- The drafts of several trees in order. -/
def draftsOfAll : List Node → Outcome (List Draft)
  | [] => .ok []
  | n :: rest =>
    match n.drafts with
    | .error e => .error e
    | .ok ds =>
      match draftsOfAll rest with
      | .error e => .error e
      | .ok more => .ok (ds ++ more)

end Node

end DataTree
