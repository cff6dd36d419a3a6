import DataTree.Json.Value
import DataTree.Path.Query

/-!
# Nodes of a data tree

A node has a path, leaves, and children.  Children are kept under keys in
increasing order; a child that is added goes under its own path, so adding
one with the path of another replaces it.  Trees read from a text may hold
children under other keys.

## Main definitions

* `Node.addChild` — a child under its own path.
* `Node.validate` — the first structural problem of a tree.
-/

namespace DataTree

/-- A node of a data tree with everything below it. -/
inductive Node where
  | mk (path : String) (leaves : Leaves) (children : List (String × Node))
  deriving Repr, Inhabited

namespace Node

def path : Node → String
  | mk path _ _ => path

def leaves : Node → Leaves
  | mk _ leaves _ => leaves

/-- The children with the keys they are kept under. -/
def keyedChildren : Node → Keyed Node
  | mk _ _ children => children

/-- The children in the order of their keys. -/
def children (n : Node) : List Node := n.keyedChildren.values

/-- A node with no leaves and no children. -/
def leafless (path : String) : Node := mk path [] []

/-- The node with one leaf set. -/
def setLeaf (n : Node) (name : String) (value : Json) : Node :=
  mk n.path (Keyed.insert name value n.leaves) n.keyedChildren

/-- The node with other leaves in place of its own. -/
def setLeaves (n : Node) (leaves : Leaves) : Node := mk n.path leaves n.keyedChildren

/-- The node with a child under that child's path. -/
def addChild (n child : Node) : Node :=
  mk n.path n.leaves (Keyed.insert child.path child n.keyedChildren)

/-- The node with several children added in turn. -/
def addChildren (n : Node) (children : List Node) : Node := children.foldl addChild n

/-- The leaf of a name. -/
def leaf? (n : Node) (name : String) : Option Json := Keyed.find? name n.leaves

/-- The child kept under exactly this key. -/
def child? (n : Node) (key : String) : Option Node := Keyed.find? key n.keyedChildren

mutual
/-- Number of nodes in the tree, its root included. -/
def size : Node → Nat
  | mk _ _ children => 1 + sizeOfAll children

def sizeOfAll : List (String × Node) → Nat
  | [] => 0
  | (_, child) :: rest => size child + sizeOfAll rest
end

/-! ## Validation -/

/-- A structural problem of a tree. -/
inductive Defect where
  | emptyPath
  | childOutsideParent (parent child : String)
  | unsupportedLeaf (path leaf : String)
  deriving DecidableEq, Repr

def Defect.message : Defect → String
  | .emptyPath => "data node path must not be empty"
  | .childOutsideParent parent child =>
    s!"child '{child}' is not located under parent '{parent}'"
  | .unsupportedLeaf path leaf =>
    s!"leaf '{leaf}' of '{path}' is neither a scalar nor a list of scalars"

/-- Whether `child` is `parent`, a slash, and something more; below the root
marker every anchored path is a child. -/
def isChildPath (parent child : String) : Bool :=
  if Path.isRoot parent then
    match child.toList with
    | '/' :: _ :: _ => true
    | _ => false
  else
    match Text.after? (parent.toList ++ ['/']) child.toList with
    | some (_ :: _) => true
    | _ => false

/-- The first leaf, by name, that holds an unsupported value. -/
def badLeaf? (leaves : Leaves) : Option String :=
  (List.find? (fun leaf => !leaf.2.isLeafValue) leaves).map (·.1)

mutual
/-- The first defect of a tree: of the node itself, then of its children in
the order of their keys. -/
def validate : Node → Except Defect Unit
  | mk path leaves children =>
    if path = "" then .error .emptyPath
    else
      match badLeaf? leaves with
      | some leaf => .error (.unsupportedLeaf path leaf)
      | none => validateAll path children

def validateAll (parent : String) : List (String × Node) → Except Defect Unit
  | [] => .ok ()
  | (_, child) :: rest =>
    if isChildPath parent child.path then
      match validate child with
      | .error e => .error e
      | .ok _ => validateAll parent rest
    else .error (.childOutsideParent parent child.path)
end

end Node

end DataTree
