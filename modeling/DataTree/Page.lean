/-!
# Pages of owners

A query over many owners is read page by page.  A page is a run of the
owners that match, and holds all of their nodes.

## Main definitions

* `Page.select` — the part of a list that is on a page.
* `Paging.count` — the number of pages.
-/

namespace DataTree

/-- A page of owners: its number, from 1, and how many owners fit. -/
structure Page where
  index : UInt32
  size : UInt32
  deriving DecidableEq, Repr

/-- A read in pages, or of everything at once. -/
abbrev Paging := Option Page

namespace Page

/-- Pages and their sizes count from 1. -/
def isValid (p : Page) : Bool := 0 < p.index && 0 < p.size

/-- Owners before the page. -/
def offset (p : Page) : Nat := (p.index.toNat - 1) * p.size.toNat

/-- Offsets from here on count as none. -/
def offsetBound : Nat := 1 <<< 63

/-- The part of a list that is on the page. -/
def select {α : Type} (p : Page) (xs : List α) : List α :=
  (xs.drop (if p.offset < offsetBound then p.offset else 0)).take p.size.toNat

end Page

namespace Paging

def isValid : Paging → Bool
  | none => true
  | some p => p.isValid

def offset : Paging → Nat
  | none => 0
  | some p => p.offset

/-- What is wrong with pages that do not count from 1. -/
def fault (paging : Paging) : String :=
  match paging with
  | none => ""
  | some p =>
    let shown := s!"Page \x7b index: {p.index.toNat}, size: {p.size.toNat} \x7d"
    s!"invalid pagination {shown}: page index and size start at 1"

/-- Number of pages that hold `total` owners. -/
def count (paging : Paging) (total : Nat) : Nat :=
  match paging with
  | none => if 0 < total then 1 else 0
  | some p => if p.size = 0 then 0 else (total + p.size.toNat - 1) / p.size.toNat

end Paging

end DataTree
