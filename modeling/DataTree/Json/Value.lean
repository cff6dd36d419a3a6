import DataTree.Json.Document
import DataTree.Keyed
import DataTree.Number.Shortest

/-!
# JSON values

What a document denotes: numbers are integers or doubles, strings are texts,
and objects are maps in which the last of several equal keys stays.  A text
nested deeper than `maxNesting` denotes nothing.

## Main definitions

* `Json.parse`, `Json.text` — values from and to text.
* `Json.same` — equality of values, by which the two zeros are equal.
-/

namespace DataTree

inductive Json where
  | null
  | bool (value : Bool)
  | number (value : Number)
  | string (value : String)
  | array (items : List Json)
  | object (members : List (String × Json))
  deriving Repr, Inhabited

namespace Json

/-! ## Reading -/

/-- Arrays and objects nest at most this deep in a text that is read. -/
def maxNesting : Nat := 127

mutual
/-- The value of a document in which arrays and objects nest at most `depth`
deep. -/
def ofDocument (depth : Nat) : Document → Option Json
  | .null => some .null
  | .bool b => some (.bool b)
  | .number n => n.value?.map .number
  | .string s => (decode? s).map .string
  | .array items =>
    match depth with
    | 0 => none
    | depth + 1 => (ofItems depth items).map .array
  | .object members =>
    match depth with
    | 0 => none
    | depth + 1 => (ofMembers depth members).map fun ms => .object (Keyed.ofList ms)

def ofItems (depth : Nat) : List Document → Option (List Json)
  | [] => some []
  | d :: rest =>
    match ofDocument depth d, ofItems depth rest with
    | some v, some vs => some (v :: vs)
    | _, _ => none

def ofMembers (depth : Nat) : List (String × Document) → Option (List (String × Json))
  | [] => some []
  | (key, d) :: rest =>
    match decode? key, ofDocument depth d, ofMembers depth rest with
    | some k, some v, some vs => some ((k, v) :: vs)
    | _, _, _ => none
end

/-- The value that a whole text denotes. -/
def parse (text : String) : Option Json :=
  (Document.parse text).bind (ofDocument maxNesting)

/-! ## Writing -/

def numberChars : Number → List Char
  | .integer n => Decimal.ofInt n
  | .double d => d.jsonChars

/-- A text as a JSON string. -/
def stringChars (s : String) : List Char := '"' :: escape s.toList ++ ['"']

mutual
/-- The text of a value, without blanks. -/
def chars : Json → List Char
  | .null => "null".toList
  | .bool true => "true".toList
  | .bool false => "false".toList
  | .number n => numberChars n
  | .string s => stringChars s
  | .array items => '[' :: Document.commas (itemsChars items) ++ [']']
  | .object members => '{' :: Document.commas (membersChars members) ++ ['}']

def itemsChars : List Json → List (List Char)
  | [] => []
  | v :: rest => chars v :: itemsChars rest

def membersChars : List (String × Json) → List (List Char)
  | [] => []
  | (key, v) :: rest => (stringChars key ++ ':' :: chars v) :: membersChars rest
end

/-- The text of a value. -/
def text (v : Json) : String := String.ofList v.chars

/-! ## Equality of values -/

mutual
/-- Whether two values are equal. -/
def same : Json → Json → Bool
  | .null, .null => true
  | .bool a, .bool b => a = b
  | .number a, .number b => a.same b
  | .string a, .string b => a = b
  | .array a, .array b => sameItems a b
  | .object a, .object b => sameMembers a b
  | _, _ => false

def sameItems : List Json → List Json → Bool
  | [], [] => true
  | a :: as, b :: bs => same a b && sameItems as bs
  | _, _ => false

def sameMembers : List (String × Json) → List (String × Json) → Bool
  | [], [] => true
  | (j, a) :: as, (k, b) :: bs => j = k && same a b && sameMembers as bs
  | _, _ => false
end

/-! ## Shapes -/

/-- Whether a value is neither an array nor an object. -/
def isScalar : Json → Bool
  | .array _ | .object _ => false
  | _ => true

/-- Whether a leaf may hold a value: a scalar, or a list of scalars. -/
def isLeafValue : Json → Bool
  | .array items => items.all isScalar
  | v => v.isScalar

end Json

/-- The leaves of a node by name. -/
abbrev Leaves := Keyed Json

namespace Leaves

/-- The text in which leaves are stored. -/
def text (leaves : Leaves) : String := Json.text (.object leaves)

/-- The leaves that a stored text denotes; an empty text has none. -/
def parse (stored : String) : Option Leaves :=
  if stored = "" then some []
  else
    match Json.parse stored with
    | some (.object members) => some members
    | _ => none

/-- Whether two sets of leaves are equal as values. -/
def same (a b : Leaves) : Bool := Json.sameMembers a b

end Leaves

end DataTree
