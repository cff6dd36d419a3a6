import DataTree.Path.Expression
import DataTree.Path.Printer

/-!
# From written paths to queries

A written path becomes a query if every step before its last one holds keys
only and the last one holds either a single leaf text or at most one group
of conditions and at most one `contains()`, in any order.

## Main definitions

* `Query.parse` — the query a text denotes, or why it denotes none.
* `normalize` — the canonical text of a path, the root marker included.
-/

namespace DataTree.Path

open DataTree.Text

/-! ## Errors -/

/-- Why a text cannot be used as a path. -/
inductive PathError where
  | malformed (path : String) (fault : Fault)
  /-- An order comparison with a quoted value. -/
  | textComparison (leaf : String) (comparison : Comparison)
  deriving DecidableEq, Repr

/-- What is wrong with a text of `total` bytes. -/
def Fault.reason (total : Nat) : Fault → String
  | .noAnchor => "path must start with '/' or '//'"
  | .expectedToken t unread => s!"expected '{t}' at offset {total - unread}"
  | .expectedName unread => s!"expected a name at offset {total - unread}"
  | .expectedQuote unread => s!"expected a quoted string at offset {total - unread}"
  | .unterminatedQuote => "unterminated string"
  | .expectedValue unread => s!"expected a value at offset {total - unread}"
  | .expectedComparison unread => s!"expected a comparison at offset {total - unread}"
  | .expectedConnective unread => s!"expected 'and', 'or' or ']' at offset {total - unread}"
  | .notListKeys name => s!"step '{name}' may only use '=' list keys joined by 'and'"
  | .functionOnStep name => s!"functions are only allowed on the final step, not on '{name}'"
  | .textNotAlone => "text() must be the only predicate of its step"
  | .textWithoutParent => "text() needs a parent step"
  | .secondConditionGroup => "only one condition group is allowed"
  | .secondContains => "only one contains() is allowed"

def PathError.message : PathError → String
  | .malformed path fault =>
    s!"failed to parse path '{path}': {fault.reason (byteLength path.toList)}"
  | .textComparison leaf comparison =>
    s!"operator '{comparison.symbol}' on leaf '{leaf}' can only be used with an integer value"

/-! ## Rules -/

/-- The keys a predicate of the step `name` stands for. -/
def Predicate.toKeys (name : String) : Predicate → Except Fault KeyGroup
  | .conditions group =>
    match group.toKeys? with
    | some keys => .ok keys
    | none => .error (.notListKeys name)
  | .text _ | .contains _ => .error (.functionOnStep name)

/-- A step that holds keys only. -/
def WrittenStep.toStep (s : WrittenStep) : Except Fault Step :=
  (s.predicates.mapM (Predicate.toKeys s.name)).map fun keys => ⟨s.name, keys⟩

def Predicate.isText : Predicate → Bool
  | .text _ => true
  | _ => false

/-- The filters of the last step, from those found so far and the
predicates that follow. -/
def collectFilters : Option ConditionGroup → Option LeafText → List Predicate →
    Except Fault Selection
  | conditions, contains, [] => .ok (.filtered conditions contains)
  | none, contains, .conditions g :: rest => collectFilters (some g) contains rest
  | some _, _, .conditions _ :: _ => .error .secondConditionGroup
  | conditions, none, .contains c :: rest => collectFilters conditions (some c) rest
  | _, some _, .contains _ :: _ => .error .secondContains
  | _, _, .text _ :: _ => .error .textNotAlone

/-- The query whose last step is filtered. -/
def Expression.filteredQuery (e : Expression) (ancestor : Option (Trail Step)) :
    Except Fault Query := do
  let selection ← collectFilters none none e.steps.last.predicates
  let parents ← e.steps.parents.mapM WrittenStep.toStep
  return ⟨e.anchor, parents, e.steps.last.name, selection, ancestor⟩

/-- The query whose last step is a leaf of the nodes asked for. -/
def Expression.leafTextQuery (e : Expression) (ancestor : Option (Trail Step)) :
    Except Fault Query :=
  match e.steps.last.predicates with
  | [.text value] => do
    match Trail.ofList? e.steps.parents with
    | none => .error .textWithoutParent
    | some owner => do
      let parents ← owner.parents.mapM WrittenStep.toStep
      let target ← owner.last.toStep
      return ⟨e.anchor, parents, target.name,
        .leafText target.keys ⟨e.steps.last.name, value⟩, ancestor⟩
  | _ => .error .textNotAlone

/-- Steps of an ancestor axis, all of which hold keys only. -/
def ancestorSteps (t : Trail WrittenStep) : Except Fault (Trail Step) := do
  let parents ← t.parents.mapM WrittenStep.toStep
  let last ← t.last.toStep
  return ⟨parents, last⟩

/-- The query a written path denotes, if it keeps the rules. -/
def Expression.toQuery (e : Expression) : Except Fault Query := do
  let ancestor ←
    match e.ancestor with
    | none => pure none
    | some t => (ancestorSteps t).map some
  if e.steps.last.predicates.any Predicate.isText then e.leafTextQuery ancestor
  else e.filteredQuery ancestor

/-! ## Parsing and normalizing -/

/-- The query that a text denotes. -/
def Query.parse (path : String) : Except PathError Query :=
  match Expression.read path.toList >>= Expression.toQuery with
  | .ok q => .ok q
  | .error fault => .error (.malformed path fault)

/-- The query for the target of the ancestor axis, at any depth. -/
def Query.ancestorQuery (q : Query) : Option (Except PathError Query) :=
  q.ancestorName.map fun name => Query.parse ("//" ++ name)

/-- The path of the root marker of a tree. -/
def rootPath : String := "/"

/-- Whether a path is the root marker, which may also be left empty. -/
def isRoot (path : String) : Bool := path = "" || path = rootPath

/-- The canonical text of a path; that of the root marker is `rootPath`. -/
def normalize (path : String) : Except PathError String :=
  if isRoot path then .ok rootPath else (Query.parse path).map Query.normalized

/-- Whether a text is the path of a list element. -/
def namesListElement (path : String) : Bool :=
  match Query.parse path with
  | .ok q => q.namesListElement
  | .error _ => false

end DataTree.Path
