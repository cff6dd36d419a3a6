/-!
# How deep a read goes

A read returns the nodes it matches with their descendants down to a depth:
none, the children, a fixed number of levels, or all.

## Main definitions

* `Fetch.parse?` — the option a text names.
* `Fetch.next` — the option for the children of a node.
-/

namespace DataTree

/-- How many levels of descendants a read returns. -/
inductive Fetch where
  | nodeOnly
  | children
  /-- More than one level. -/
  | levels (count : UInt32)
  | all
  deriving DecidableEq, Repr

namespace Fetch

/-- The option for a number of levels. -/
def depth (count : UInt32) : Fetch :=
  if count = 0 then nodeOnly else if count = 1 then children else levels count

/-- The number of levels, unless it is unbounded. -/
def maxDepth : Fetch → Option UInt32
  | nodeOnly => some 0
  | children => some 1
  | levels count => some count
  | all => none

/-- Whether nodes are read with children. -/
def hasNext (f : Fetch) : Bool := f.maxDepth ≠ some 0

/-- The option for the children of a node read with `f`. -/
def next (f : Fetch) : Fetch :=
  match f.maxDepth with
  | none => all
  | some count => if count = 0 then nodeOnly else depth (count - 1)

/-- The option a text names: a word, or a number of levels. -/
def parse? (text : String) : Option Fetch :=
  if text = "" || text = "none" || text = "0" then some nodeOnly
  else if text = "direct" || text = "1" then some children
  else if text = "all" || text = "-1" then some all
  else if text.toList.all Char.isDigit then
    let count := Nat.ofDigitChars 10 text.toList 0
    if count < UInt32.size then some (depth (UInt32.ofNat count)) else none
  else none

/-- What is wrong with a text that names no option. -/
def parseFault (text : String) : String :=
  s!"'{text}' is not a valid fetch descendants option"

/-- The name of an option. -/
def name : Fetch → String
  | nodeOnly => "OmitDescendants"
  | children => "DirectChildrenOnly"
  | levels count => s!"Depth={count.toNat}"
  | all => "IncludeAllDescendants"

/-! ## Depths -/

/-- Depths 0 and 1 have names of their own and still count as such. -/
@[simp] theorem maxDepth_depth (count : UInt32) : (depth count).maxDepth = some count := by
  unfold depth
  split
  · rename_i h; subst h; rfl
  · split
    · rename_i h; subst h; rfl
    · rfl

/-- The children of a node are read one level less deep. -/
theorem maxDepth_next (f : Fetch) :
    f.next.maxDepth = f.maxDepth.map fun count => if count = 0 then 0 else count - 1 := by
  unfold next
  cases h : f.maxDepth with
  | none => rfl
  | some count =>
    simp only [Option.map_some]
    split
    · rfl
    · exact maxDepth_depth _

end Fetch

end DataTree
