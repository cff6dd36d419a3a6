import DataTree.Path.Query

/-!
# Queries as statements

The engine gets a query as one statement.  What the query asks of the owner of a row, of
its path, its parent and its leaves is joined to one expression, condition by condition
from left to right, so the expression nests deeper with every condition.  With an ancestor
axis the expression for the rows to begin at is part of another one.  The engine takes no
statement with an expression that nests too deep.

Nothing but the depth of expressions matters to that, so they are kept as shapes.

## Main definitions

* `Shape` — how the parts of an expression are nested.
* `Shape.fits` — whether the engine takes an expression.
* `Path.Query.statement` — the expressions of a query.
-/

namespace DataTree

open DataTree.Path

/-- How the parts of an expression are nested. -/
inductive Shape where
  /-- A name or a value. -/
  | atom
  | wrap (inner : Shape)
  | both (left right : Shape)
  /-- The rows of a table for which something holds. -/
  | rows (picked : Shape)
  deriving DecidableEq, Repr

namespace Shape

/-- How deep an expression nests; rows are no level of their own. -/
def depth : Shape → Nat
  | atom => 1
  | wrap inner => inner.depth + 1
  | both left right => max left.depth right.depth + 1
  | rows picked => picked.depth

/-- How much deeper the rows in an expression count: each as if it began at the bottom of
what it is part of. -/
def reach : Shape → Nat
  | atom => 0
  | wrap inner => inner.reach
  | both left right => max left.reach right.reach
  | rows picked => picked.depth + picked.reach

/-- Expressions nest at most this deep. -/
def maxDepth : Nat := 1000

/-- Whether the engine takes an expression. -/
def fits (e : Shape) : Bool := e.depth + e.reach ≤ maxDepth

/-- Expressions joined from left to right. -/
def joined (first : Shape) (rest : List Shape) : Shape := rest.foldl both first

/-- A column of a row. -/
def column : Shape := both atom atom

/-- A column of a row compared with a value. -/
def equal : Shape := both column atom

/-- A leaf of a row, or its type. -/
def stored : Shape := both column atom

end Shape

/-! ## Leaves -/

open Shape

/-- A leaf as it is compared with a value: for an integer a number, or a text that spells
one, and for a quoted value its text. -/
def Path.Literal.seenShape : Literal → Shape
  | .integer _ => both stored (both (both (wrap (wrap stored)) stored) (wrap stored))
  | .text _ => both stored (wrap stored)

def Path.Condition.shape (c : Condition) : Shape := both c.value.seenShape atom

/-- Conditions are joined strictly from left to right. -/
def Path.ConditionGroup.shape (g : ConditionGroup) : Shape :=
  joined g.first.shape (g.rest.map fun c => c.2.shape)

/-- `text()` asks for an item of a leaf, by its text and by the integer it spells. -/
def Path.LeafText.itemShape (t : LeafText) : Shape :=
  let wanted := if (Decimal.toInt? t.value.toList).isSome then both equal equal else equal
  wrap (rows (both (wrap equal) wanted))

/-- `contains()` asks for a place in the text of a leaf. -/
def Path.LeafText.placeShape (_ : LeafText) : Shape := both (both (wrap stored) atom) atom

/-! ## Owners, paths and parents -/

/-- The owners that a query covers. -/
inductive Scope where
  | owner (id : Nat)
  | dataspace (id : Nat)
  | owners (ids : List Nat)
  deriving Repr

def Scope.shape : Scope → Shape
  | .owner _ => equal
  | .dataspace _ => both column (rows equal)
  | .owners _ => both column (rows atom)

/-- The parent of a row by its path, which is empty for the roots of trees. -/
def Scope.parentShape (scope : Scope) (parent : String) : Shape :=
  if parent = "" then wrap column
  else
    match scope with
    | .owner _ => both column (wrap (rows (both equal equal)))
    | .dataspace _ | .owners _ => both column (rows equal)

/-- The path of a row, matched with another. -/
def pathShape : Shape := both column atom

/-! ## Whole queries -/

namespace Path.Query

/-- What a query asks of a row besides its owner. -/
def clauses (q : Query) (scope : Scope) : List Shape :=
  pathShape :: ((if q.isAbsolute then [scope.parentShape q.parentAddress] else [])
    ++ (q.conditions.map ConditionGroup.shape).toList
    ++ (q.leafText.map LeafText.itemShape).toList
    ++ (q.contains.map LeafText.placeShape).toList)

/-- The expression for the rows that a query names. -/
def rowShape (q : Query) (scope : Scope) : Shape := joined scope.shape (q.clauses scope)

/-- The expressions of a query, with the query for its ancestors if it asks for them: then
its rows are those to begin at, and the walk up ends at the first row that matches. -/
def statement (q : Query) (ancestor : Option Query) (scope : Scope) : List Shape :=
  match ancestor with
  | none => [q.rowShape scope]
  | some a =>
    [both column (rows (q.rowShape scope)), wrap pathShape,
      joined pathShape (a.conditions.map ConditionGroup.shape).toList]

end Path.Query

end DataTree
