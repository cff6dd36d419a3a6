import DataTree.Json.Value
import DataTree.Path.Query

/-!
# How queries see leaves

A query reads leaves straight from their stored text.  It sees a leaf as a
scalar, or as the compact text of an array or object, and of two members of
one name it sees the first.  Numbers have a text of their own, with fifteen
significant digits.

## Main definitions

* `LeafValue.ofDocument` — a leaf as queries see it.
* `Condition.holds`, `ConditionGroup.holds` — conditions on leaves.
* `LeafText.isText`, `LeafText.isContained` — the two functions.
-/

namespace DataTree

open DataTree.Path

/-- A stored leaf as queries see it. -/
inductive LeafValue where
  | null
  | bool (value : Bool)
  | number (value : Numeral.Stored)
  | text (value : String)
  /-- An array or object, by its compact text. -/
  | composite (compact : String)
  deriving DecidableEq, Repr

/-! ## Stored numbers -/

namespace Numeral.Stored

/-- The text of a stored number. -/
def text : Stored → String
  | integer n => String.ofList (Decimal.ofInt n)
  | double d => String.ofList d.textChars
  | infinite negative => if negative then "-Inf" else "Inf"

/-- How a stored number compares with an integer. -/
def compareInt : Stored → Int → Ordering
  | integer m, n => compare m n
  | double d, n => d.compareInt n
  | infinite negative, _ => if negative then .lt else .gt

end Numeral.Stored

/-! ## Leaves of a document -/

namespace LeafValue

def ofDocument : Document → LeafValue
  | .null => null
  | .bool b => bool b
  | .number n => number n.nearest
  | .string s => text (String.ofList (Json.unescape s.toList))
  | .array items => composite (String.ofList (Document.array items).chars)
  | .object members => composite (String.ofList (Document.object members).chars)

end LeafValue

/-- The first member of an object under a name. -/
def Document.member? (name : String) : Document → Option Document
  | .object members =>
    (members.find? fun m => Json.unescape m.1.toList = name.toList).map (·.2)
  | _ => none

/-- The items of an array, the values of an object, or the scalar itself. -/
def Document.items : Document → List Document
  | .array items => items
  | .object members => members.map (·.2)
  | d => [d]

/-! ## Conditions -/

/-- Whether an ordering satisfies a comparison. -/
def Path.Comparison.admits : Comparison → Ordering → Bool
  | .equal, o => o = .eq
  | .greater, o => o = .gt
  | .less, o => o = .lt
  | .atLeast, o => o ≠ .lt
  | .atMost, o => o ≠ .gt

/-- The integer that a text spells in plain decimal. -/
def plainInteger? (s : String) : Option Int :=
  (Decimal.toInt? s.toList).filter fun n => String.ofList (Decimal.ofInt n) = s

namespace LeafValue

/-- How a leaf compares with an integer: numbers do, and texts that spell one
in plain decimal. -/
def compareInt (n : Int) : LeafValue → Option Ordering
  | number m => some (m.compareInt n)
  | text s => (plainInteger? s).map fun m => compare m n
  | _ => none

/-- The text by which a leaf is equal to a quoted value. -/
def quotable : LeafValue → Option String
  | bool b => some (if b then "true" else "false")
  | number m => some m.text
  | text s => some s
  | null | composite _ => none

/-- The text that `contains()` searches. -/
def searchable : LeafValue → Option String
  | bool b => some (if b then "1" else "0")
  | number m => some m.text
  | text s => some s
  | composite s => some s
  | null => none

/-- Whether a leaf is equal to what `text()` asks for: as text or, if that is
an integer, as a number. -/
def isText (wanted : String) : LeafValue → Bool
  | text s => s = wanted
  | number m => (Decimal.toInt? wanted.toList).any fun n => m.compareInt n = .eq
  | bool b => (Decimal.toInt? wanted.toList).any fun n => n = if b then 1 else 0
  | null | composite _ => false

end LeafValue

/-- Whether one text occurs in another. -/
def occursIn (needle : List Char) : List Char → Bool
  | [] => needle.isEmpty
  | c :: cs => needle.isPrefixOf (c :: cs) || occursIn needle cs

/-- Whether the leaves of a document satisfy a condition; a leaf that is
missing or cannot be compared does not.  Quoted values only ever stand
behind `=`. -/
def Path.Condition.holds (d : Document) (c : Condition) : Bool :=
  match (d.member? c.leaf).map LeafValue.ofDocument with
  | none => false
  | some leaf =>
    match c.value with
    | .integer n => (leaf.compareInt n).any c.comparison.admits
    | .text s => leaf.quotable = some s

/-- Whether the leaves of a document satisfy a group: its conditions are
joined strictly from left to right. -/
def Path.ConditionGroup.holds (d : Document) (g : ConditionGroup) : Bool :=
  g.rest.foldl
    (fun sofar joined =>
      match joined.1 with
      | .and => sofar && joined.2.holds d
      | .or => sofar || joined.2.holds d)
    (g.first.holds d)

/-- Whether a leaf, or an item of it, has the text asked for. -/
def Path.LeafText.isText (d : Document) (t : LeafText) : Bool :=
  match d.member? t.leaf with
  | none => false
  | some leaf => leaf.items.any fun item => (LeafValue.ofDocument item).isText t.value

/-- Whether the text of a leaf contains the text asked for. -/
def Path.LeafText.isContained (d : Document) (t : LeafText) : Bool :=
  match ((d.member? t.leaf).map LeafValue.ofDocument).bind LeafValue.searchable with
  | none => false
  | some s => occursIn t.value.toList s.toList

end DataTree
