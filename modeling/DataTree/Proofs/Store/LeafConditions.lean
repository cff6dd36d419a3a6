import DataTree.Proofs.Json.Seen
import DataTree.Proofs.Store.OwnPaths

/-!
# Conditions on integers

A leaf may be compared with an integer or, as a text, with the decimal of one.  The two
are equal for the same leaves, namely for the integer as a number and as a string in plain
decimal, and the order of the integers decides how such a leaf compares with any other.
All other leaves that are no doubles compare with nothing.

## Main definitions

* `Row.Meets` — whether the leaves of a row satisfy a condition.
* `Comparison.Relates` — what a comparison says of two integers.
* `Query.withoutConditions` — a query without the conditions of its last step.
* `Leaves.IntegerAt` — the integer that the leaf of a name is.

## Main results

* `mem_rowsFound_withCondition` — a query finds the rows that meet its condition.
* `meets_integer_iff`, `meets_quoted_iff` — conditions on a leaf that is no double.
* `integer_conditions` — how they depend on each other.
-/

namespace DataTree

open DataTree.Path

/-- Whether the leaves of a row satisfy a condition. -/
def Row.Meets (r : Row) (c : Condition) : Prop :=
  ∃ d, storedDocument? r.attributes = some d ∧ c.holds d = true

namespace Path

/-- What a comparison says of two integers. -/
def Comparison.Relates : Comparison → Int → Int → Prop
  | .equal, m, n => m = n
  | .greater, m, n => n < m
  | .less, m, n => m < n
  | .atLeast, m, n => n ≤ m
  | .atMost, m, n => m ≤ n

theorem Comparison.admits_compare_iff (c : Comparison) (m n : Int) :
    c.admits (compare m n) = true ↔ c.Relates m n := by
  cases c with
  | equal => simp [admits, Relates]
  | greater => simp [admits, Relates, compare_gt_iff_gt]
  | less => simp [admits, Relates, compare_lt_iff_lt]
  | atLeast => simp [admits, Relates, compare_lt_iff_lt]
  | atMost => simp [admits, Relates, compare_gt_iff_gt]

/-- A query without the conditions of its last step. -/
def Query.withoutConditions (q : Query) : Query := q.filteredBy none q.contains

end Path

/-- Whether the leaf of a name is an integer. -/
def Leaves.IntegerAt (leaves : Leaves) (x : String) (n : Int) : Prop :=
  ∃ v, Keyed.find? x leaves = some v ∧ v.IsInteger n

theorem Leaves.IntegerAt.unique {leaves : Leaves} {x : String} {m n : Int}
    (hm : leaves.IntegerAt x m) (hn : leaves.IntegerAt x n) : m = n := by
  obtain ⟨v, hv, hm⟩ := hm
  obtain ⟨w, hw, hn⟩ := hn
  obtain rfl := Option.some.inj (hv.symm.trans hw)
  exact hm.unique hn

/-! ## Rows of a query -/

/-- A query whose last step is filtered admits the rows whose leaves pass the filters. -/
theorem admitsRow_of_filtered {q : Query} (conditions : Option ConditionGroup)
    (contains : Option LeafText) (h : q.selection = .filtered conditions contains) {r : Row}
    {d : Document} (hd : storedDocument? r.attributes = some d) :
    q.admitsRow r = true
      ↔ (∀ g ∈ conditions, g.holds d = true) ∧ ∀ t ∈ contains, t.isContained d = true := by
  have hadmits : q.admits d = true
      ↔ (∀ g ∈ conditions, g.holds d = true) ∧ ∀ t ∈ contains, t.isContained d = true := by
    simp [Query.admits, Query.conditions, Query.leafText, Query.contains, h, Option.all_eq_true]
  cases hreads : q.readsLeaves with
  | true =>
      rw [← hadmits, Query.admitsRow, hreads, hd, Option.any_some, Bool.not_true, Bool.false_or]
  | false =>
      rw [Query.admitsRow, hreads, Bool.not_false, Bool.true_or]
      simp only [Query.readsLeaves, Query.conditions, Query.leafText, Query.contains, h,
        Bool.or_eq_false_iff, Option.isSome_eq_false_iff, Option.isNone_iff_eq_none] at hreads
      obtain ⟨⟨rfl, -⟩, rfl⟩ := hreads
      simp

/-- A query without conditions is always taken. -/
theorem fits_withoutConditions (q : Query) (scope : Scope) :
    (⟨q.withoutConditions, none⟩ : Selector).fits scope = true := by
  have hlength : q.withoutConditions.conditionList.length = 0 := rfl
  exact fits_none_of_length (by omega) scope

theorem mem_rowsFound_withCondition {s : Store}
    (hread : ∀ r ∈ s.rows, (storedDocument? r.attributes).isSome = true) (owner : Nat) (q : Query)
    (c : Condition) (r : Row) : r ∈ s.rowsFound owner (q.withCondition c)
      ↔ r ∈ s.rowsFound owner q.withoutConditions ∧ r.Meets c := by
  rw [mem_rowsFound_iff hread (fits_withCondition q c _),
    mem_rowsFound_iff hread (fits_withoutConditions q _), and_assoc, and_assoc]
  refine and_congr_right fun hr => ?_
  have hnamed : isNamed s (.owner owner) (q.withCondition c) r
      = isNamed s (.owner owner) q.withoutConditions r := rfl
  rw [hnamed]
  refine and_congr_right fun _ => ?_
  obtain ⟨d, hd⟩ := Option.isSome_iff_exists.mp (hread r hr)
  rw [admitsRow_of_filtered (some ⟨c, []⟩) q.contains rfl hd,
    admitsRow_of_filtered none q.contains rfl hd]
  simp [Row.Meets, hd, ConditionGroup.holds, and_comm]

/-! ## Leaves of a row -/

section

variable {r : Row} {stored leaves : Leaves} (hstored : stored.Held)
  (htext : r.attributes = stored.text) (hparse : Leaves.parse r.attributes = some leaves)

include hstored htext hparse

theorem storedDocument?_of_held :
    storedDocument? r.attributes = some (.object (Json.memberDocuments stored)) := by
  rw [htext, Leaves.storedDocument?_text hstored (htext ▸ hparse)]

/-- A leaf is compared with an integer as its stored value is seen. -/
theorem meets_integer_iff_seen {x : String} {c : Comparison} {n : Int} :
    r.Meets ⟨x, c, .integer n⟩ ↔ ∃ w, Keyed.find? x stored = some w
      ∧ ∃ o, w.seen.compareInt n = some o ∧ c.admits o = true := by
  have hd := storedDocument?_of_held hstored htext hparse
  simp only [Row.Meets, hd, Option.some_inj, exists_eq_left', Condition.holds,
    Json.member?_memberDocuments]
  cases Keyed.find? x stored with
  | none => simp
  | some w => simp [Json.seen, Option.any_eq_true]

theorem meets_quoted_iff_seen {x t : String} :
    r.Meets ⟨x, .equal, .text t⟩ ↔ ∃ w, Keyed.find? x stored = some w
      ∧ w.seen.quotable = some t := by
  have hd := storedDocument?_of_held hstored htext hparse
  simp only [Row.Meets, hd, Option.some_inj, exists_eq_left', Condition.holds,
    Json.member?_memberDocuments]
  cases Keyed.find? x stored with
  | none => simp
  | some w => simp [Json.seen]

/-! ## Leaves that are no doubles -/

/-- The integer that is read under a name is the one that is stored there. -/
theorem integerAt_iff {x : String} {n : Int} :
    leaves.IntegerAt x n ↔ ∃ w, Keyed.find? x stored = some w ∧ w.IsInteger n := by
  obtain ⟨hmembers, -⟩ := Leaves.alike_of_parse_text hstored (htext ▸ hparse)
  exact (hmembers.exists_find?_iff (fun _ _ h => h.isInteger_iff) x).symm

variable {x : String} (hdouble : ∀ d, Keyed.find? x leaves ≠ some (.number (.double d)))

include hdouble

/-- What is stored under a name at which no double is read. -/
theorem held_of_find?_stored {w : Json} (hw : Keyed.find? x stored = some w) :
    w.Held ∧ ∀ d, w ≠ .number (.double d) := by
  refine ⟨Leaves.membersHeld_iff.mp hstored.2 _ (Keyed.mem_of_find? hw), fun d hd => ?_⟩
  obtain ⟨hmembers, -⟩ := Leaves.alike_of_parse_text hstored (htext ▸ hparse)
  obtain ⟨v, hv, d', rfl⟩ := (hmembers.exists_find?_iff
    (fun _ _ h => h.exists_eq_double_iff) x).mp ⟨w, hw, d, hd⟩
  exact hdouble d' hv

variable {n : Int} (hn : Decimal.IsInt64 n)

include hn

/-- A leaf compares with a word as the integer that it is. -/
theorem meets_integer_iff (c : Comparison) :
    r.Meets ⟨x, c, .integer n⟩ ↔ ∃ m, leaves.IntegerAt x m ∧ c.Relates m n := by
  simp only [meets_integer_iff_seen hstored htext hparse, integerAt_iff hstored htext hparse]
  constructor
  · rintro ⟨w, hw, o, ho, hadmits⟩
    obtain ⟨hheld, hnone⟩ := held_of_find?_stored hstored htext hparse hdouble hw
    obtain ⟨m, hm, rfl⟩ := (Json.compareInt_seen hheld hnone hn o).mp ho
    exact ⟨m, ⟨w, hw, hm⟩, (c.admits_compare_iff m n).mp hadmits⟩
  · rintro ⟨m, ⟨w, hw, hm⟩, hrelates⟩
    obtain ⟨hheld, hnone⟩ := held_of_find?_stored hstored htext hparse hdouble hw
    exact ⟨w, hw, _, (Json.compareInt_seen hheld hnone hn _).mpr ⟨m, hm, rfl⟩,
      (c.admits_compare_iff m n).mpr hrelates⟩

/-- A leaf has the text of a word exactly if it is that integer. -/
theorem meets_quoted_iff :
    r.Meets ⟨x, .equal, .text (String.ofList (Decimal.ofInt n))⟩ ↔ leaves.IntegerAt x n := by
  rw [meets_quoted_iff_seen hstored htext hparse, integerAt_iff hstored htext hparse]
  refine exists_congr fun w => and_congr_right fun hw => ?_
  obtain ⟨hheld, hnone⟩ := held_of_find?_stored hstored htext hparse hdouble hw
  exact Json.quotable_seen hheld hnone hn

end

/-- Conditions on a leaf that is no double.  It equals an integer in the one form exactly
if it does in the other; of less, equal and greater at most one holds, and the weak
comparisons follow from them; and one of them holds exactly if the leaf is an integer or
spells one in plain decimal.  A query with such a condition finds those of its rows whose
leaves meet it. -/
theorem integer_conditions {history : List Operation}
    (hheld : ∀ operation ∈ history, ∀ w, operation.write? = some w → w.Held) {r : Row}
    (hr : r ∈ (Store.empty.after history).rows) {leaves : Leaves}
    (hparse : Leaves.parse r.attributes = some leaves) :
    let s := Store.empty.after history
    (∀ x, (∀ d, Keyed.find? x leaves ≠ some (.number (.double d))) →
      ∀ n, Decimal.IsInt64 n →
      let meets (c : Comparison) := r.Meets ⟨x, c, .integer n⟩
      (meets .equal ↔ r.Meets ⟨x, .equal, .text (String.ofList (Decimal.ofInt n))⟩)
        ∧ ¬(meets .less ∧ meets .equal) ∧ ¬(meets .equal ∧ meets .greater)
        ∧ ¬(meets .less ∧ meets .greater)
        ∧ (meets .atMost ↔ meets .less ∨ meets .equal)
        ∧ (meets .atLeast ↔ meets .greater ∨ meets .equal)
        ∧ ((∃ c, meets c) ↔ ∃ m, leaves.IntegerAt x m)
        ∧ ∀ c, meets c ↔ ∃ m, leaves.IntegerAt x m ∧ c.Relates m n)
      ∧ (s.Plain → ∀ (path : String) (q : Query) (c : Condition),
        Query.parse path = .ok (q.withCondition c) → q.ancestor = none → c.isTextOrder = false →
        ∀ (owner : Owner) (fetch : Fetch), ∃ rows, s.query owner path fetch = s.nodes fetch rows
          ∧ (r ∈ rows ↔ r ∈ s.rowsFound owner.id q.withoutConditions ∧ r.Meets c)) := by
  intro s
  obtain ⟨stored, hstored, htext⟩ := exists_held_text hheld r hr
  refine ⟨fun x hdouble n hn => ?_, fun hplain path q c hpath haxis hquoted owner fetch => ?_⟩
  · have hmeets := meets_integer_iff hstored htext hparse hdouble hn
    simp only [meets_quoted_iff hstored htext hparse hdouble hn, hmeets]
    by_cases hinteger : ∃ m, leaves.IntegerAt x m
    · obtain ⟨m, hm⟩ := hinteger
      have honly : ∀ P : Int → Prop, (∃ k, leaves.IntegerAt x k ∧ P k) ↔ P m := fun P =>
        ⟨fun ⟨k, hk, hP⟩ => hk.unique hm ▸ hP, fun hP => ⟨m, hm, hP⟩⟩
      have hequal : leaves.IntegerAt x n ↔ m = n := ⟨hm.unique, fun h => h ▸ hm⟩
      have hsome : ∃ c : Comparison, c.Relates m n := by
        rcases lt_trichotomy m n with hlt | heq | hgt
        · exact ⟨.less, hlt⟩
        · exact ⟨.equal, heq⟩
        · exact ⟨.greater, hgt⟩
      simp only [honly, hequal, Comparison.Relates, implies_true, and_true, true_and]
      exact ⟨by omega, by omega, by omega, by omega, by omega, iff_of_true hsome ⟨m, hm⟩⟩
    · have hnone : ∀ k, ¬leaves.IntegerAt x k := not_exists.mp hinteger
      simp [hnone]
  · have hfits := fits_withCondition q c (.owner owner.id)
    obtain ⟨rows, hquery, -, hfound⟩ := exists_rows_of_query (sound_after history)
      (readable_after hplain) hpath haxis
      (by simpa [Query.conditionList, Query.conditions, Query.withCondition] using hquoted)
      hfits fetch
    refine ⟨rows, hquery, ?_⟩
    rw [← mem_rowsFound_withCondition (readable_after hplain), ← hfound]
    rfl

/-- Integers as numbers and as strings, one of them beyond the words, and a string that
spells one otherwise. -/
theorem integer_conditions_of_spellings :
    let owner : Owner := ⟨1, 1, "d", "o"⟩
    let request := Operation.request .readWrite
    let leaves : Leaves := [("great", .number (.integer 9223372036854775808)),
      ("number", .number (.integer 12)), ("plain", .string "12"), ("signed", .string "+12")]
    let history := [request (.createDataspace "d"), request (.createOwner ⟨1, "d"⟩ "o"),
      request (.write owner (.store [.mk "/a" leaves []]))]
    let s := Store.empty.after history
    let r : Row := ⟨1, 1, "/a", none, leaves.text⟩
    (∀ operation ∈ history, ∀ w, operation.write? = some w → w.Held) ∧ r ∈ s.rows
      ∧ Leaves.parse r.attributes = some leaves ∧ s.Plain
      ∧ r.Meets ⟨"number", .equal, .integer 12⟩ ∧ r.Meets ⟨"plain", .equal, .integer 12⟩
      ∧ (∀ c, ¬r.Meets ⟨"signed", c, .integer 12⟩) ∧ r.Meets ⟨"great", .greater, .integer 12⟩
      ∧ ∃ rows, s.query owner "/a[@plain=12]" .nodeOnly = s.nodes .nodeOnly rows ∧ r ∈ rows := by
  intro owner request leaves history s r
  have hsorted : List.Pairwise (fun a b => a.1 < b.1) leaves := by decide +kernel
  have hexact : leaves.Exact :=
    ⟨hsorted, ⟨by decide, by decide⟩, ⟨by decide, by decide⟩, trivial, trivial, trivial⟩
  have hleaves : leaves.Held := hexact.held
  have htrees : (Write.store [.mk "/a" leaves []]).trees = [.mk "/a" leaves []] := rfl
  have hheld : ∀ operation ∈ history, ∀ w, operation.write? = some w → w.Held := by
    simpa [history, request, Operation.write?, Write.Held, htrees, Write.merges,
      Node.forall_within_mk, Node.leaves] using hleaves
  have hplain : s.Plain := by decide +kernel
  have hr : r ∈ s.rows := by decide +kernel
  have hparse : Leaves.parse r.attributes = some leaves :=
    Leaves.parse_text_of_shallow hexact (Leaves.shallow_of_badLeaf? rfl)
  obtain ⟨hconditions, hquery⟩ := integer_conditions hheld hr hparse
  have hdouble : ∀ leaf ∈ leaves, ∀ d, leaf.2 ≠ .number (.double d) := by
    simp [leaves]
  have hmeets : ∀ x c, r.Meets ⟨x, c, .integer 12⟩
      ↔ ∃ m, leaves.IntegerAt x m ∧ c.Relates m 12 := by
    intro x c
    obtain ⟨-, -, -, -, -, -, -, hall⟩ := hconditions x
      (fun d hd => hdouble _ (Keyed.mem_of_find? hd) d rfl) 12 (by decide)
    exact hall c
  have hspelled : "12" = String.ofList (Decimal.ofInt 12) := by decide +kernel
  have hmet : r.Meets ⟨"plain", .equal, .integer 12⟩ :=
    (hmeets _ _).mpr ⟨12, ⟨_, rfl, .inr ⟨by decide, congrArg _ hspelled⟩⟩, rfl⟩
  refine ⟨hheld, hr, hparse, hplain, ?_, hmet, fun c => ?_, ?_, ?_⟩
  · exact (hmeets _ _).mpr ⟨12, ⟨_, rfl, .inl rfl⟩, rfl⟩
  · rw [hmeets]
    rintro ⟨m, ⟨v, hv, hm⟩, -⟩
    cases hv
    rw [Json.isInteger_string_iff, show plainInteger? "+12" = none by decide +kernel] at hm
    cases hm
  · exact (hmeets _ _).mpr
      ⟨_, ⟨_, rfl, .inl rfl⟩, (by decide : (12 : Int) < 9223372036854775808)⟩
  · let q : Query := ⟨.absolute, [], "a", .filtered none none, none⟩
    have hpath : (Query.parse "/a[@plain=12]").toOption
        = some (q.withCondition ⟨"plain", .equal, .integer 12⟩) := by decide +kernel
    obtain ⟨rows, hrows, hfound⟩ := hquery hplain _ q _ (toOption_eq_some_iff.mp hpath) rfl rfl
      owner .nodeOnly
    refine ⟨rows, hrows, hfound.mpr ⟨?_, hmet⟩⟩
    rw [mem_rowsFound_iff (readable_after hplain) (fits_withoutConditions q _)]
    exact ⟨hr, by decide +kernel, by decide +kernel⟩

end DataTree
