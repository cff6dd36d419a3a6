import DataTree.Fetch
import DataTree.Json.Document
import DataTree.Json.Escape
import DataTree.Json.Relaxed
import DataTree.Json.Value
import DataTree.Keyed
import DataTree.Node.Basic
import DataTree.Node.Text
import DataTree.Number.Decimal
import DataTree.Number.Double
import DataTree.Number.Numeral
import DataTree.Number.Shortest
import DataTree.Page
import DataTree.Path.Basic
import DataTree.Path.Expression
import DataTree.Path.Match
import DataTree.Path.Printer
import DataTree.Path.Query
import DataTree.Proofs.Json.Doubles
import DataTree.Proofs.Json.Held
import DataTree.Proofs.Json.Normal
import DataTree.Proofs.Json.RoundTrip
import DataTree.Proofs.Json.Seen
import DataTree.Proofs.Json.Spelling
import DataTree.Proofs.Json.Values
import DataTree.Proofs.Json.Written
import DataTree.Proofs.Keyed
import DataTree.Proofs.Node.Siblings
import DataTree.Proofs.Node.Written
import DataTree.Proofs.Number.Normal
import DataTree.Proofs.Number.Reading
import DataTree.Proofs.Number.Rounding
import DataTree.Proofs.Number.Shortest
import DataTree.Proofs.Outcome
import DataTree.Proofs.Path.Axis
import DataTree.Proofs.Path.Canonical
import DataTree.Proofs.Path.Filters
import DataTree.Proofs.Path.Grammar
import DataTree.Proofs.Path.Language
import DataTree.Proofs.Path.Lists
import DataTree.Proofs.Path.Matching
import DataTree.Proofs.Path.Nesting
import DataTree.Proofs.Path.Overlap
import DataTree.Proofs.Path.Quotes
import DataTree.Proofs.Path.Scanning
import DataTree.Proofs.Path.Spelling
import DataTree.Proofs.Store.Across
import DataTree.Proofs.Store.Addresses
import DataTree.Proofs.Store.Ancestry
import DataTree.Proofs.Store.Apart
import DataTree.Proofs.Store.Appended
import DataTree.Proofs.Store.Branches
import DataTree.Proofs.Store.Cascade
import DataTree.Proofs.Store.Climb
import DataTree.Proofs.Store.Concurrency
import DataTree.Proofs.Store.Conditions
import DataTree.Proofs.Store.Containment
import DataTree.Proofs.Store.Counting
import DataTree.Proofs.Store.Depth
import DataTree.Proofs.Store.Drafts
import DataTree.Proofs.Store.Duplicates
import DataTree.Proofs.Store.Effect
import DataTree.Proofs.Store.Emptied
import DataTree.Proofs.Store.Enacted
import DataTree.Proofs.Store.FailedCalls
import DataTree.Proofs.Store.Insertion
import DataTree.Proofs.Store.Invariant
import DataTree.Proofs.Store.Isolation
import DataTree.Proofs.Store.LeafConditions
import DataTree.Proofs.Store.LeafTexts
import DataTree.Proofs.Store.LeaseLengths
import DataTree.Proofs.Store.Leases
import DataTree.Proofs.Store.ListElements
import DataTree.Proofs.Store.Listed
import DataTree.Proofs.Store.Lookups
import DataTree.Proofs.Store.Lossless
import DataTree.Proofs.Store.Merging
import DataTree.Proofs.Store.Moves
import DataTree.Proofs.Store.Nested
import DataTree.Proofs.Store.Operations
import DataTree.Proofs.Store.OwnPaths
import DataTree.Proofs.Store.Owned
import DataTree.Proofs.Store.Pages
import DataTree.Proofs.Store.Parts
import DataTree.Proofs.Store.PastPages
import DataTree.Proofs.Store.Placement
import DataTree.Proofs.Store.Plan
import DataTree.Proofs.Store.Planted
import DataTree.Proofs.Store.Provenance
import DataTree.Proofs.Store.Queries
import DataTree.Proofs.Store.Reachable
import DataTree.Proofs.Store.Reading
import DataTree.Proofs.Store.Reconcile
import DataTree.Proofs.Store.Refusal
import DataTree.Proofs.Store.Removals
import DataTree.Proofs.Store.Renewal
import DataTree.Proofs.Store.ReplacedLists
import DataTree.Proofs.Store.Replacement
import DataTree.Proofs.Store.Rewrites
import DataTree.Proofs.Store.Rooted
import DataTree.Proofs.Store.Selectors
import DataTree.Proofs.Store.Serial
import DataTree.Proofs.Store.Settled
import DataTree.Proofs.Store.Share
import DataTree.Proofs.Store.Statements
import DataTree.Proofs.Store.Summaries
import DataTree.Proofs.Store.Targets
import DataTree.Proofs.Store.Texts
import DataTree.Proofs.Store.Trace
import DataTree.Proofs.Store.Turns
import DataTree.Proofs.Store.UnderElements
import DataTree.Proofs.Store.Validity
import DataTree.Proofs.Text.Runs
import DataTree.Settings.Basic
import DataTree.Settings.Duration
import DataTree.Settings.Toml
import DataTree.Store.Admin
import DataTree.Store.Batch
import DataTree.Store.Draft
import DataTree.Store.Edit
import DataTree.Store.Error
import DataTree.Store.Files
import DataTree.Store.LeafValue
import DataTree.Store.Lock
import DataTree.Store.Lookup
import DataTree.Store.Merge
import DataTree.Store.Operation
import DataTree.Store.Prefetch
import DataTree.Store.Reconcile
import DataTree.Store.Request
import DataTree.Store.Select
import DataTree.Store.Shared
import DataTree.Store.Statement
import DataTree.Store.Tables
import DataTree.Store.Write
import DataTree.Text.Scan
