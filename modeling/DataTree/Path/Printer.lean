import DataTree.Number.Decimal
import DataTree.Path.Basic

/-!
# Canonical text of a path

One text for each query: no blanks but those around connectives, conditions
before `contains()`, integers in plain decimal, and single quotes unless the
value holds one.

## Main definitions

* `Query.normalized` — the whole path.
* `Query.address` — the path of the nodes asked for, without their filters.
* `Query.parentAddress` — the path of their parent, empty at the roots.
-/

namespace DataTree.Path

/-! ## Pieces -/

/-- A quoted value: in single quotes, or in double quotes if it holds a
single one. -/
def quoted (value : List Char) : List Char :=
  if '\'' ∈ value then '"' :: value ++ ['"'] else '\'' :: value ++ ['\'']

def Comparison.symbol : Comparison → String
  | .equal => "="
  | .greater => ">"
  | .less => "<"
  | .atLeast => ">="
  | .atMost => "<="

def Connective.word : Connective → String
  | .and => "and"
  | .or => "or"

def Literal.chars : Literal → List Char
  | .integer n => Decimal.ofInt n
  | .text s => quoted s.toList

def Condition.chars (c : Condition) : List Char :=
  '@' :: c.leaf.toList ++ c.comparison.symbol.toList ++ c.value.chars

/-- A further condition with the connective before it. -/
def joinedChars (joined : Connective × Condition) : List Char :=
  ' ' :: joined.1.word.toList ++ ' ' :: joined.2.chars

/-- The conditions of a group, without brackets. -/
def ConditionGroup.chars (g : ConditionGroup) : List Char :=
  g.first.chars ++ g.rest.flatMap joinedChars

/-- A group in its brackets. -/
def ConditionGroup.bracketed (g : ConditionGroup) : List Char :=
  '[' :: g.chars ++ [']']

def Step.chars (s : Step) : List Char :=
  s.name.toList ++ s.keys.flatMap fun g => g.toConditions.bracketed

/-- Steps separated by slashes. -/
def stepsChars (steps : List Step) : List Char :=
  ['/'].intercalate (steps.map Step.chars)

/-! ## Addresses and whole paths -/

def Anchor.chars : Anchor → List Char
  | .absolute => ['/']
  | .descendant => ['/', '/']

/-- What comes after the address: filters, leaf text and ancestor axis. -/
def Query.suffixChars (q : Query) : List Char :=
  (match q.conditions with
    | some g => g.bracketed
    | none => [])
  ++ (match q.contains with
    | some c => "[contains(@".toList ++ c.leaf.toList ++ ',' :: quoted c.value.toList ++ [')', ']']
    | none => [])
  ++ (match q.leafText with
    | some t => '/' :: t.leaf.toList ++ "[text()=".toList ++ quoted t.value.toList ++ [']']
    | none => [])
  ++ (match q.ancestor with
    | some t => "/ancestor::".toList ++ stepsChars t.toList
    | none => [])

def Query.addressChars (q : Query) : List Char :=
  q.anchor.chars ++ stepsChars q.target.toList

def Query.chars (q : Query) : List Char := q.addressChars ++ q.suffixChars

/-- The whole path in canonical form. -/
def Query.normalized (q : Query) : String := String.ofList q.chars

/-- The path of the nodes asked for, without the filters of the final step:
`/a/b[@k='1']/c` for `/a/b[@k='1']/c[@x=2]`. -/
def Query.address (q : Query) : String := String.ofList q.addressChars

/-- The path of the parent of the nodes asked for; empty for nodes at the
roots and for nodes at any depth. -/
def Query.parentAddress (q : Query) : String :=
  match q.anchor, q.parents with
  | .absolute, step :: steps => String.ofList ('/' :: stepsChars (step :: steps))
  | _, _ => ""

/-- For `//b/c` this is `b/c`; an anchored path has none. -/
def Query.descendantName (q : Query) : Option String :=
  match q.anchor with
  | .absolute => none
  | .descendant => some (String.ofList (stepsChars q.target.toList))

/-- The target of the ancestor axis as text. -/
def Query.ancestorName (q : Query) : Option String :=
  q.ancestor.map fun t => String.ofList (stepsChars t.toList)

end DataTree.Path
