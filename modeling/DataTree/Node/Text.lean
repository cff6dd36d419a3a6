import DataTree.Node.Basic

/-!
# Nodes as JSON

A node is written as an object with its path, leaves and children, the
children under their keys.  It is read from such an object, in which leaves
and children may be missing and other members are ignored, or from an array
of the same three values, which may end early.

## Main definitions

* `Node.toJson`, `Node.text` — a node as a value and as text.
* `Node.parse` — the node a text denotes.
-/

namespace DataTree.Node

/-! ## Writing -/

mutual
/-- A node as a JSON value. -/
def toJson : Node → Json
  | mk path leaves children =>
    .object [("children", .object (childrenJson children)), ("leaves", .object leaves),
      ("path", .string path)]

def childrenJson : List (String × Node) → List (String × Json)
  | [] => []
  | (key, child) :: rest => (key, toJson child) :: childrenJson rest
end

mutual
/-- The text of a node: path, leaves, children. -/
def chars : Node → List Char
  | mk path leaves children =>
    "\x7b\"path\":".toList ++ Json.stringChars path
      ++ ",\"leaves\":".toList ++ Json.chars (.object leaves)
      ++ ",\"children\":\x7b".toList ++ Document.commas (childrenChars children)
      ++ "\x7d\x7d".toList

def childrenChars : List (String × Node) → List (List Char)
  | [] => []
  | (key, child) :: rest => (Json.stringChars key ++ ':' :: chars child) :: childrenChars rest
end

def text (n : Node) : String := String.ofList n.chars

/-! ## Reading -/

/-- What the members of an object, or the items of an array, say of a
node. -/
structure Fields where
  path : Option String
  leaves : Option Leaves
  children : Option (Keyed Node)

/-- The node of the fields found; a path is needed. -/
def Fields.toNode (f : Fields) : Option Node :=
  f.path.map fun path => Node.mk path (f.leaves.getD []) (f.children.getD [])

/-- A document that is a string. -/
def pathOf : Document → Option String
  | .string s => Json.decode? s
  | _ => none

/-- A document that is an object of leaves. -/
def leavesOf (depth : Nat) (d : Document) : Option Leaves :=
  match d with
  | .object _ =>
    match Json.ofDocument depth d with
    | some (.object members) => some members
    | _ => none
  | _ => none

mutual
/-- The node that a document denotes, nested at most `depth` deep. -/
def ofDocument (depth : Nat) : Document → Option Node
  | .object members =>
    match depth with
    | 0 => none
    | depth + 1 => (ofMembers depth members).bind Fields.toNode
  | .array items =>
    match depth with
    | 0 => none
    | depth + 1 => (ofItems depth items).bind Fields.toNode
  | _ => none

/-- The fields among the members of an object, none of them twice. -/
def ofMembers (depth : Nat) : List (String × Document) → Option Fields
  | [] => some ⟨none, none, none⟩
  | (spelling, d) :: rest =>
    match Json.decode? spelling, ofMembers depth rest with
    | some key, some fields =>
      if key = "path" then
        match fields.path, pathOf d with
        | none, some path => some { fields with path := some path }
        | _, _ => none
      else if key = "leaves" then
        match fields.leaves, leavesOf depth d with
        | none, some leaves => some { fields with leaves := some leaves }
        | _, _ => none
      else if key = "children" then
        match fields.children, childrenOf depth d with
        | none, some children => some { fields with children := some children }
        | _, _ => none
      else some fields
    | _, _ => none

/-- The fields that the items of an array are, in order. -/
def ofItems (depth : Nat) : List Document → Option Fields
  | [path] => (pathOf path).map fun p => ⟨some p, none, none⟩
  | [path, leaves] =>
    match pathOf path, leavesOf depth leaves with
    | some p, some l => some ⟨some p, some l, none⟩
    | _, _ => none
  | [path, leaves, children] =>
    match pathOf path, leavesOf depth leaves, childrenOf depth children with
    | some p, some l, some c => some ⟨some p, some l, some c⟩
    | _, _, _ => none
  | _ => none

/-- A document that is an object of nodes. -/
def childrenOf (depth : Nat) : Document → Option (Keyed Node)
  | .object members =>
    match depth with
    | 0 => none
    | depth + 1 => (namedNodes depth members).map Keyed.ofList
  | _ => none

def namedNodes (depth : Nat) : List (String × Document) → Option (List (String × Node))
  | [] => some []
  | (spelling, d) :: rest =>
    match Json.decode? spelling, ofDocument depth d, namedNodes depth rest with
    | some key, some node, some nodes => some ((key, node) :: nodes)
    | _, _, _ => none
end

/-- The node that a whole text denotes. -/
def parse (text : String) : Option Node :=
  (Document.parse text).bind (ofDocument Json.maxNesting)

end DataTree.Node
