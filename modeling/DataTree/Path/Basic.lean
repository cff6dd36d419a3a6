/-!
# Paths of a data tree

A path names nodes of a tree by the steps that lead to them.  A step is a
name followed by the keys that pick elements of a list; the final step may
also filter what it names.  A path is anchored at the roots (`/a/b`) or
matches at any depth (`//b`), and may end in an ancestor axis, which asks
for the nearest enclosing node of the matches instead.

The types here are the checked form: only the final step can hold
comparisons, a `contains()` or a leaf text, and every other step holds keys
alone.  `DataTree.Path.Expression` is the form as written.
-/

namespace DataTree.Path

/-- Where the first step of a path is looked up. -/
inductive Anchor where
  /-- `/a`: at the roots. -/
  | absolute
  /-- `//a`: at any depth. -/
  | descendant
  deriving DecidableEq, Repr

/-- How a condition compares a leaf with its literal. -/
inductive Comparison where
  | equal
  | greater
  | less
  | atLeast
  | atMost
  deriving DecidableEq, Repr

/-- How two neighbouring conditions are joined. -/
inductive Connective where
  | and
  | or
  deriving DecidableEq, Repr

/-- Right hand side of a condition. -/
inductive Literal where
  | integer (value : Int)
  | text (value : String)
  deriving DecidableEq, Repr

/-- `@leaf=value` used as a filter, with any comparison. -/
structure Condition where
  leaf : String
  comparison : Comparison
  value : Literal
  deriving DecidableEq, Repr

/-- Conditions of one bracket, in the order written. -/
structure ConditionGroup where
  first : Condition
  rest : List (Connective × Condition)
  deriving DecidableEq, Repr

/-- `@leaf=value` used as a list key. -/
structure Key where
  leaf : String
  value : Literal
  deriving DecidableEq, Repr

/-- Keys of one bracket; all of them have to agree. -/
structure KeyGroup where
  first : Key
  rest : List Key
  deriving DecidableEq, Repr

/-- One step of an address: a name and the keys that pick elements. -/
structure Step where
  name : String
  keys : List KeyGroup
  deriving DecidableEq, Repr

/-- A list with at least one element, split before its last one. -/
structure Trail (α : Type) where
  parents : List α
  last : α
  deriving DecidableEq, Repr

/-- A leaf and the text it is asked for. -/
structure LeafText where
  leaf : String
  value : String
  deriving DecidableEq, Repr

/-- What the final step of a path asks of the nodes it names. -/
inductive Selection where
  /-- `/a[keys]/leaf[text()='v']` selects `a`, whose keys belong to its
  address. -/
  | leafText (keys : List KeyGroup) (wanted : LeafText)
  /-- `/a[conditions][contains(@leaf,'v')]`, either part optional. -/
  | filtered (conditions : Option ConditionGroup) (contains : Option LeafText)
  deriving DecidableEq, Repr

/-- A path in checked form. -/
structure Query where
  anchor : Anchor
  /-- Steps before the one that names the nodes asked for. -/
  parents : List Step
  /-- Name of the nodes asked for. -/
  name : String
  selection : Selection
  /-- Target of the ancestor axis, if there is one. -/
  ancestor : Option (Trail Step)
  deriving DecidableEq, Repr

/-! ## Trails -/

/-- The elements in order. -/
def Trail.toList {α : Type} (t : Trail α) : List α := t.parents ++ [t.last]

/-- A nonempty list as a trail. -/
def Trail.ofList? {α : Type} : List α → Option (Trail α)
  | [] => none
  | [x] => some ⟨[], x⟩
  | x :: xs => (ofList? xs).map fun t => ⟨x :: t.parents, t.last⟩

@[simp] theorem Trail.ofList?_append_singleton {α : Type} (xs : List α) (x : α) :
    Trail.ofList? (xs ++ [x]) = some ⟨xs, x⟩ := by
  induction xs with
  | nil => rfl
  | cons y ys ih =>
    cases ys with
    | nil => rfl
    | cons z zs => simp only [List.cons_append] at ih ⊢; simp [Trail.ofList?, ih]

theorem Trail.ofList?_toList {α : Type} (t : Trail α) : Trail.ofList? t.toList = some t := by
  simp [Trail.toList]

/-! ## Keys and conditions -/

/-- A key is the condition that its leaf equals its value. -/
def Key.toCondition (k : Key) : Condition := ⟨k.leaf, .equal, k.value⟩

/-- A condition that can serve as a key. -/
def Condition.toKey? (c : Condition) : Option Key :=
  if c.comparison = .equal then some ⟨c.leaf, c.value⟩ else none

/-- Keys as conditions joined by `and`. -/
def KeyGroup.toConditions (g : KeyGroup) : ConditionGroup :=
  ⟨g.first.toCondition, g.rest.map fun k => (.and, k.toCondition)⟩

/-- The key a further condition of a group stands for. -/
def joinedKey? (joined : Connective × Condition) : Option Key :=
  if joined.1 = .and then joined.2.toKey? else none

/-- A group of `=` conditions joined by `and` alone is a group of keys. -/
def ConditionGroup.toKeys? (g : ConditionGroup) : Option KeyGroup :=
  match g.first.toKey?, g.rest.mapM joinedKey? with
  | some first, some rest => some ⟨first, rest⟩
  | _, _ => none

@[simp] theorem Condition.toKey?_toCondition (k : Key) : k.toCondition.toKey? = some k := rfl

theorem KeyGroup.toKeys?_toConditions (g : KeyGroup) : g.toConditions.toKeys? = some g := by
  have hrest : (g.rest.map fun k => (Connective.and, k.toCondition)).mapM joinedKey?
      = some g.rest := by
    induction g.rest with
    | nil => rfl
    | cons k ks ih => simp [List.mapM_cons, joinedKey?, ih]
  simp [ConditionGroup.toKeys?, KeyGroup.toConditions, hrest]

/-! ## The address of a query -/

namespace Query

/-- Keys that the final step carries as part of its address. -/
def keys (q : Query) : List KeyGroup :=
  match q.selection with
  | .leafText keys _ => keys
  | .filtered .. => []

/-- Steps that address the nodes asked for, without filters. -/
def target (q : Query) : Trail Step := ⟨q.parents, q.name, q.keys⟩

/-- Conditions on the leaves of the nodes asked for. -/
def conditions (q : Query) : Option ConditionGroup :=
  match q.selection with
  | .leafText .. => none
  | .filtered conditions _ => conditions

/-- The leaf text asked for by a final `leaf[text()='v']`. -/
def leafText (q : Query) : Option LeafText :=
  match q.selection with
  | .leafText _ wanted => some wanted
  | .filtered .. => none

/-- The `contains()` of the final step. -/
def contains (q : Query) : Option LeafText :=
  match q.selection with
  | .leafText .. => none
  | .filtered _ contains => contains

def isAbsolute (q : Query) : Bool := q.anchor = .absolute

/-- Whether the path ends in conditions and nothing else, as the address of
a list element does: `/a/b[@k='1']`. -/
def namesListElement (q : Query) : Bool :=
  q.isAbsolute && q.conditions.isSome && q.leafText.isNone && q.contains.isNone
    && q.ancestor.isNone

end Query

end DataTree.Path
