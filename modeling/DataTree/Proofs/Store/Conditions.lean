import DataTree.Proofs.Store.Queries
import Mathlib.Data.Set.Basic

/-!
# Conditions as sets of rows

The conditions of a query are joined from left to right, and `and` binds no tighter
than `or`.  Each of them can be true, false or unknown, where a leaf is missing or
does not compare; a row is found if all of it is true.  As nothing is ever negated,
unknown is as good as false, and the rows found are what the rows of the single
conditions make by intersections and unions.  A single condition never makes a statement
that nests too deep, but some hundreds of them do, and then the query is refused.

## Main definitions

* `Truth` — true, false or unknown.
* `Condition.truth`, `ConditionGroup.truth`, `Query.truth` — conditions and queries
  on stored leaves.
* `Query.withCondition` — a query with a single condition for all of its own.
* `Connective.join` — the sets of rows that connectives make.

## Main results

* `holds_iff_truth`, `truth_eq_yes_iff` — what is admitted is what is true.
* `rowsFound_eq_foldl` — the rows of a group from those of its conditions.
* `fits_withCondition` — a query with a single condition is always taken.
* `query_conditions` — the rows of a query with conditions.
-/

namespace DataTree

open DataTree.Path

/-! ## Three values -/

inductive Truth where
  | yes
  | no
  | unknown
  deriving DecidableEq, Repr

namespace Truth

/-- A conjunction is false if one side is, and true if both are. -/
def and : Truth → Truth → Truth
  | .no, _ => .no
  | .yes, t => t
  | .unknown, .no => .no
  | .unknown, _ => .unknown

/-- A disjunction is true if one side is, and false if both are. -/
def or : Truth → Truth → Truth
  | .yes, _ => .yes
  | .no, t => t
  | .unknown, .yes => .yes
  | .unknown, _ => .unknown

def ofBool (b : Bool) : Truth := if b then .yes else .no

/-- A comparison of something that may not be there. -/
def ofOption : Option Bool → Truth
  | none => .unknown
  | some b => ofBool b

@[simp] theorem and_eq_yes {t u : Truth} : t.and u = .yes ↔ t = .yes ∧ u = .yes := by
  cases t <;> cases u <;> simp [and]

@[simp] theorem or_eq_yes {t u : Truth} : t.or u = .yes ↔ t = .yes ∨ u = .yes := by
  cases t <;> cases u <;> simp [or]

@[simp] theorem ofBool_eq_yes {b : Bool} : ofBool b = .yes ↔ b = true := by
  cases b <;> simp [ofBool]

@[simp] theorem ofOption_eq_yes {o : Option Bool} : ofOption o = .yes ↔ o = some true := by
  cases o <;> simp [ofOption]

end Truth

namespace Path

/-- A condition on the leaves of a document; it is unknown where the leaf is missing or
does not compare. -/
def Condition.truth (d : Document) (c : Condition) : Truth :=
  match (d.member? c.leaf).map LeafValue.ofDocument with
  | none => .unknown
  | some leaf =>
    match c.value with
    | .integer n => .ofOption ((leaf.compareInt n).map c.comparison.admits)
    | .text s => .ofOption (leaf.quotable.map fun t => t = s)

def Connective.truth : Connective → Truth → Truth → Truth
  | .and => Truth.and
  | .or => Truth.or

/-- The conditions of a group, joined from left to right. -/
def ConditionGroup.truth (d : Document) (g : ConditionGroup) : Truth :=
  g.rest.foldl (fun sofar joined => joined.1.truth sofar (joined.2.truth d)) (g.first.truth d)

/-- Whether a leaf contains a text; unknown where there is nothing to search. -/
def LeafText.containsTruth (d : Document) (t : LeafText) : Truth :=
  .ofOption ((((d.member? t.leaf).map LeafValue.ofDocument).bind LeafValue.searchable).map
    fun s => occursIn t.value.toList s.toList)

/-- All that a query with conditions asks of a row, of its path and of its leaves. -/
def Query.truth (q : Query) (named : Bool) (d : Document) : Truth :=
  ((Truth.ofBool named).and (q.conditions.elim .yes fun g => g.truth d)).and
    (q.contains.elim .yes fun t => t.containsTruth d)

theorem holds_iff_truth {d : Document} {c : Condition} : c.holds d = true ↔ c.truth d = .yes := by
  rw [Condition.holds, Condition.truth]
  cases (d.member? c.leaf).map LeafValue.ofDocument with
  | none => simp
  | some leaf =>
      cases c.value with
      | integer n => simp [Option.any_eq_true]
      | text s => simp

theorem ConditionGroup.holds_iff_truth {d : Document} {g : ConditionGroup} :
    g.holds d = true ↔ g.truth d = .yes := by
  have hfold : ∀ (rest : List (Connective × Condition)) (b : Bool) (t : Truth),
      (b = true ↔ t = .yes) →
      ((rest.foldl (fun sofar joined => match joined.1 with
          | .and => sofar && joined.2.holds d
          | .or => sofar || joined.2.holds d) b) = true
        ↔ rest.foldl (fun sofar joined => joined.1.truth sofar (joined.2.truth d)) t = .yes) := by
    intro rest
    induction rest with
    | nil => exact fun b t h => h
    | cons joined rest ih =>
        intro b t h
        obtain ⟨k, c⟩ := joined
        refine ih _ _ ?_
        cases k with
        | and => simp [Connective.truth, h, Path.holds_iff_truth]
        | or => simp [Connective.truth, h, Path.holds_iff_truth]
  exact hfold g.rest _ _ Path.holds_iff_truth

theorem LeafText.isContained_iff_truth {d : Document} {t : LeafText} :
    t.isContained d = true ↔ t.containsTruth d = .yes := by
  rw [LeafText.isContained, LeafText.containsTruth]
  cases ((d.member? t.leaf).map LeafValue.ofDocument).bind LeafValue.searchable <;> simp

/-! ## Single conditions -/

/-- A query with a single condition for all of its own. -/
def Query.withCondition (q : Query) (c : Condition) : Query :=
  { q with selection := .filtered (some ⟨c, []⟩) q.contains }

section

variable {q : Query} {g : ConditionGroup} (hg : q.conditions = some g)

include hg

/-- The text of a query with one of its conditions denotes it. -/
theorem parse_withCondition {path : String} (hpath : Query.parse path = .ok q) {c : Condition}
    (hc : c ∈ q.conditionList) :
    Query.parse (q.withCondition c).normalized = .ok (q.withCondition c) := by
  obtain ⟨hgroup, hcontains⟩ := List.forall_mem_cons.mp
    (Query.writtenSteps_of_conditions hg ▸ predicateAs_of_parse hpath)
  rw [Query.conditionList, hg] at hc
  obtain ⟨v, hcondition⟩ := conditionAs_of_predicateAs hgroup c hc
  have hsingle : PredicateAs (.conditions ⟨c, []⟩) ('[' :: ([] ++ ((v ++ []) ++ [']']))) :=
    ⟨[], _, blank_nil, .conditions hcondition (.nil blank_nil), rfl⟩
  refine parse_filteredBy hpath (Query.leafText_of_conditions hg) ?_ fun t ht =>
    ⟨_, hcontains _ (Option.mem_toList.mpr (Option.map_eq_some_iff.mpr ⟨t, ht, rfl⟩))⟩
  intro g hg
  obtain rfl := Option.mem_some_iff.mp hg
  exact ⟨_, hsingle⟩

/-- Conditions are no part of what a path names. -/
theorem isNamed_withCondition (s : Store) (scope : Scope) (c : Condition) :
    isNamed s scope (q.withCondition c) = isNamed s scope q := by
  obtain ⟨anchor, parents, name, selection, ancestor⟩ := q
  cases selection with
  | leafText keys wanted => cases hg
  | filtered conditions contains => rfl

theorem admits_iff {d : Document} :
    q.admits d = true ↔ g.holds d = true ∧ q.contains.all (fun t => t.isContained d) = true := by
  rw [Query.admits, hg, Query.leafText_of_conditions hg]
  simp

/-- All that a query asks of a row is true if its path is named and its leaves are
admitted. -/
theorem truth_eq_yes_iff {named : Bool} {d : Document} :
    q.truth named d = .yes ↔ named = true ∧ q.admits d = true := by
  rw [admits_iff hg, Query.truth, hg, ConditionGroup.holds_iff_truth]
  cases q.contains with
  | none => simp
  | some t => simp [LeafText.isContained_iff_truth, and_assoc]

end

end Path

/-! ## Sets of rows -/

/-- The set of rows that a connective makes of two. -/
def Path.Connective.join : Connective → Set Row → Set Row → Set Row
  | .and => (· ∩ ·)
  | .or => (· ∪ ·)

/-- The rows of an owner that a query without an axis finds. -/
def Store.rowsFound (s : Store) (owner : Nat) (q : Query) : Set Row :=
  {r | ∃ found, s.select (.owner owner) ⟨q, none⟩ = .ok found ∧ r ∈ found}

/-- The rows that satisfy a group are those that its connectives make of the rows that
satisfy its conditions. -/
theorem foldl_join {base : Row → Prop} {holds : Condition → Row → Bool}
    {single : Condition → Set Row} (hsingle : ∀ c r, r ∈ single c ↔ base r ∧ holds c r = true)
    (rest : List (Connective × Condition)) {found : Set Row} {sofar : Row → Bool}
    (hfound : ∀ r, r ∈ found ↔ base r ∧ sofar r = true) (r : Row) :
    r ∈ rest.foldl (fun found joined => joined.1.join found (single joined.2)) found
      ↔ base r ∧ rest.foldl (fun sofar joined => match joined.1 with
          | .and => sofar && holds joined.2 r
          | .or => sofar || holds joined.2 r) (sofar r) = true := by
  induction rest generalizing found sofar with
  | nil => exact hfound r
  | cons joined rest ih =>
      obtain ⟨k, c⟩ := joined
      cases k with
      | and =>
          have hnext : ∀ r, r ∈ Connective.and.join found (single c)
              ↔ base r ∧ (sofar r && holds c r) = true := by
            intro r
            simp only [Connective.join, Set.mem_inter_iff, hfound, hsingle, Bool.and_eq_true]
            exact and_and_left.symm
          exact ih hnext
      | or =>
          have hnext : ∀ r, r ∈ Connective.or.join found (single c)
              ↔ base r ∧ (sofar r || holds c r) = true := by
            intro r
            simp only [Connective.join, Set.mem_union, hfound, hsingle, Bool.or_eq_true]
            exact and_or_left.symm
          exact ih hnext

/-- A query with a single condition is taken, whatever else it asks for. -/
theorem fits_withCondition (q : Query) (c : Condition) (scope : Scope) :
    (⟨q.withCondition c, none⟩ : Selector).fits scope = true := by
  have hlength : (q.withCondition c).conditionList.length = 1 := rfl
  exact fits_none_of_length (by omega) scope

section

variable {s : Store} (hread : ∀ r ∈ s.rows, (storedDocument? r.attributes).isSome = true)

include hread

theorem mem_rowsFound_iff {owner : Nat} {q : Query}
    (hfits : (⟨q, none⟩ : Selector).fits (.owner owner) = true) (r : Row) :
    r ∈ s.rowsFound owner q
      ↔ r ∈ s.rows ∧ isNamed s (.owner owner) q r = true ∧ q.admitsRow r = true := by
  rw [Store.rowsFound, select_of_readable hread hfits]
  simp [and_comm]

variable {q : Query} {g : ConditionGroup} (hg : q.conditions = some g)

include hg

omit hread in
theorem admitsRow_iff {r : Row} {d : Document} (hd : storedDocument? r.attributes = some d) :
    q.admitsRow r = true
      ↔ g.holds d = true ∧ q.contains.all (fun t => t.isContained d) = true := by
  rw [← Path.admits_iff hg, Query.admitsRow, Query.readsLeaves, hg, hd]
  simp

/-- The rows of a query with conditions are what its connectives make of the rows of the
single conditions. -/
theorem rowsFound_eq_foldl {owner : Nat}
    (hfits : (⟨q, none⟩ : Selector).fits (.owner owner) = true) :
    s.rowsFound owner q
      = g.rest.foldl (fun found joined =>
          joined.1.join found (s.rowsFound owner (q.withCondition joined.2)))
        (s.rowsFound owner (q.withCondition g.first)) := by
  let contained (r : Row) : Bool :=
    (storedDocument? r.attributes).any fun d => q.contains.all fun t => t.isContained d
  let holds (c : Condition) (r : Row) : Bool := (storedDocument? r.attributes).any c.holds
  have hsingle : ∀ c r, r ∈ s.rowsFound owner (q.withCondition c)
      ↔ (r ∈ s.rows ∧ isNamed s (.owner owner) q r = true ∧ contained r = true)
        ∧ holds c r = true := by
    intro c r
    rw [mem_rowsFound_iff hread (fits_withCondition q c _), Path.isNamed_withCondition hg,
      and_assoc, and_assoc]
    refine and_congr_right fun hr => and_congr_right fun _ => ?_
    obtain ⟨d, hd⟩ := Option.isSome_iff_exists.mp (hread r hr)
    have hcontained : contained r = q.contains.all fun t => t.isContained d := by
      simp only [contained, hd, Option.any_some]
    have hholds : holds c r = c.holds d := by simp only [holds, hd, Option.any_some]
    have hsingle : (q.withCondition c).conditions = some ⟨c, []⟩ := rfl
    rw [admitsRow_iff hsingle hd, hcontained, hholds]
    exact and_comm
  ext r
  rw [foldl_join hsingle g.rest (hsingle g.first), mem_rowsFound_iff hread hfits, and_assoc,
    and_assoc]
  refine and_congr_right fun hr => and_congr_right fun _ => ?_
  obtain ⟨d, hd⟩ := Option.isSome_iff_exists.mp (hread r hr)
  simp only [admitsRow_iff hg hd, contained, holds, hd, Option.any_some]
  exact and_comm

end

/-! ## Queries with conditions -/

/-- A query without an axis that is taken reads the nodes of its rows, each once and in the
order of their ids. -/
theorem exists_rows_of_query {s : Store} (hs : s.Sound)
    (hread : ∀ r ∈ s.rows, (storedDocument? r.attributes).isSome = true) {path : String} {q : Query}
    (hpath : Query.parse path = .ok q) (haxis : q.ancestor = none)
    (hquoted : ∀ c ∈ q.conditionList, c.isTextOrder = false) {owner : Owner}
    (hfits : (⟨q, none⟩ : Selector).fits (.owner owner.id) = true) (fetch : Fetch) :
    ∃ rows, s.query owner path fetch = s.nodes fetch rows
      ∧ (rows.Pairwise fun r r' => r.id < r'.id) ∧ {r | r ∈ rows} = s.rowsFound owner.id q := by
  have hselect := select_of_readable hread hfits
  refine ⟨_, ?_, (hs.ids.filter (isNamed s (.owner owner.id) q)).filter q.admitsRow, ?_⟩
  · rw [query_of_selector hpath (selector_of_forall haxis hquoted), hselect]
    rfl
  · ext r
    simp [Store.rowsFound, hselect]

/-- A query whose conditions order by a quoted value is refused for the first of them. -/
theorem query_refused {path : String} {q : Query} (hpath : Query.parse path = .ok q) {c : Condition}
    (hc : q.conditionList.find? Condition.isTextOrder = some c) (s : Store) (owner : Owner)
    (fetch : Fetch) :
    s.query owner path fetch = .error (.badPath (.textComparison c.leaf c.comparison)) := by
  have hselector : q.selector = .error (.textComparison c.leaf c.comparison) := by
    rw [Query.selector, checkConditions_eq, hc]
    rfl
  rw [query_of_parse hpath, hselector]
  rfl

/-- A query with conditions and no axis.  If it orders by no quoted value and its statement
does not nest too deep then, whatever operations have been run, as long as stored leaves are
scalars and lists of scalars, it succeeds and finds, each once and in the order of their ids,
the rows that its connectives make from left to right of the rows of the same query with each
single condition, and these are the rows of which all it asks is true in three values.
Otherwise it is refused, whatever is stored: for the first condition that orders by a quoted
value, and if there is none for its depth. -/
theorem query_conditions {path : String} {q : Query} {g : ConditionGroup}
    (hpath : Query.parse path = .ok q) (haxis : q.ancestor = none)
    (hconditions : q.conditions = some g) :
    (∀ (history : List Operation) (owner : Owner) (fetch : Fetch),
      (∀ c ∈ q.conditionList, c.isTextOrder = false) → (Store.empty.after history).Plain →
      (⟨q, none⟩ : Selector).fits (.owner owner.id) = true →
      let s := Store.empty.after history
      let single (c : Condition) : Set Row := s.rowsFound owner.id (q.withCondition c)
      ∃ rows nodes, s.query owner path fetch = .ok nodes ∧ s.nodes fetch rows = .ok nodes
        ∧ nodes.map Node.path = rows.map Row.path
        ∧ (rows.Pairwise fun r r' => r.id < r'.id)
        ∧ {r | r ∈ rows}
          = g.rest.foldl (fun found joined => joined.1.join found (single joined.2))
            (single g.first)
        ∧ (∀ c ∈ q.conditionList, ∃ found,
          s.query owner (q.withCondition c).normalized fetch = s.nodes fetch found
            ∧ (found.Pairwise fun r r' => r.id < r'.id) ∧ {r | r ∈ found} = single c)
        ∧ ∀ r, r ∈ rows ↔ r ∈ s.rows ∧ ∃ d, storedDocument? r.attributes = some d
          ∧ q.truth (isNamed s (.owner owner.id) q r) d = .yes)
      ∧ (∀ (s : Store) (owner : Owner) (fetch : Fetch),
        (∀ c ∈ q.conditionList, c.isTextOrder = false) →
        (⟨q, none⟩ : Selector).fits (.owner owner.id) = false →
          s.query owner path fetch = .error (.engine .deepExpression))
      ∧ ∀ c, q.conditionList.find? Condition.isTextOrder = some c →
        ∀ (s : Store) (owner : Owner) (fetch : Fetch),
          s.query owner path fetch = .error (.badPath (.textComparison c.leaf c.comparison)) := by
  refine ⟨fun history owner fetch hquoted hplain hfits => ?_, fun s owner fetch hquoted hdeep =>
    query_of_not_fits hpath (selector_of_forall haxis hquoted) hdeep fetch,
    fun c hc => query_refused hpath hc⟩
  intro s single
  have hs := sound_after history
  have hread := readable_after hplain
  obtain ⟨rows, hquery, hids, hfound⟩ :=
    exists_rows_of_query hs hread hpath haxis hquoted hfits fetch
  have hmem : ∀ r, r ∈ rows
      ↔ r ∈ s.rows ∧ isNamed s (.owner owner.id) q r = true ∧ q.admitsRow r = true := by
    intro r
    rw [← mem_rowsFound_iff hread hfits, ← hfound]
    rfl
  obtain ⟨nodes, hnodes, hpaths⟩ := exists_nodes hplain fetch fun r hr => ((hmem r).mp hr).1
  refine ⟨rows, nodes, hquery.trans hnodes, hnodes, hpaths, hids, ?_, fun c hc => ?_, fun r => ?_⟩
  · rw [hfound, rowsFound_eq_foldl hread hconditions hfits]
  · have hquotedSingle : ∀ c' ∈ (q.withCondition c).conditionList, c'.isTextOrder = false := by
      intro c' hc'
      obtain rfl : c' = c := List.mem_singleton.mp hc'
      exact hquoted c' hc
    exact exists_rows_of_query hs hread (Path.parse_withCondition hconditions hpath hc) haxis
      hquotedSingle (fits_withCondition q c _) fetch
  · rw [hmem]
    refine and_congr_right fun hr => ?_
    obtain ⟨d, hd⟩ := Option.isSome_iff_exists.mp (hread r hr)
    rw [admitsRow_iff hconditions hd, ← Path.admits_iff hconditions]
    simp [hd, Path.truth_eq_yes_iff hconditions]

/-- Leaves that are missing, are lists, or are texts of an integer, under conditions that
would mean something else if `and` bound tighter; and two orders by quoted values, of
which the first is reported. -/
theorem query_conditions_of_mixed_connectives :
    let first : Node := .mk "/a/b[@k=1]" [("x", .number (.integer 1))] []
    let second : Node :=
      .mk "/a/b[@k=2]" [("x", .number (.integer 1)), ("z", .number (.integer 3))] []
    let third : Node := .mk "/a/b[@k=3]" [("y", .string "u"), ("z", .string "4")] []
    let fourth : Node :=
      .mk "/a/b[@k=4]" [("y", .array [.string "u"]), ("z", .number (.integer 9))] []
    let tree : Node := .mk "/a" [] ([first, second, third, fourth].map fun n => (n.path, n))
    let owner : Owner := ⟨1, 1, "d", "o"⟩
    let history : List Operation := [.request .readWrite (.createDataspace "d"),
      .request .readWrite (.createOwner ⟨1, "d"⟩ "o"),
      .request .readWrite (.write owner (.store [tree]))]
    let s := Store.empty.after history
    let q : Query := ⟨.descendant, [], "b", .filtered (some ⟨⟨"x", .equal, .integer 1⟩,
      [(.or, ⟨"y", .equal, .text "u"⟩), (.and, ⟨"z", .greater, .integer 2⟩)]⟩) none, none⟩
    let single (c : Condition) : Set Row := s.rowsFound 1 (q.withCondition c)
    s.Plain ∧ Query.parse "//b[@x=1 or @y='u' and @z>2]" = .ok q
      ∧ (∃ (rows : List Row) (nodes : List Node),
        s.query owner "//b[@x=1 or @y='u' and @z>2]" .nodeOnly = .ok nodes
        ∧ nodes.map Node.path = ["/a/b[@k=2]", "/a/b[@k=3]"]
        ∧ rows.map Row.path = ["/a/b[@k=2]", "/a/b[@k=3]"]
        ∧ {r | r ∈ rows} = (single ⟨"x", .equal, .integer 1⟩ ∪ single ⟨"y", .equal, .text "u"⟩)
          ∩ single ⟨"z", .greater, .integer 2⟩)
      ∧ ∀ s : Store, s.query owner "//b[@x=1 or @y>'u' and @z<'v']" .nodeOnly
        = .error (.badPath (.textComparison "y" .greater)) := by
  intro first second third fourth tree owner history s q single
  let refused : Query := ⟨.descendant, [], "b", .filtered (some ⟨⟨"x", .equal, .integer 1⟩,
    [(.or, ⟨"y", .greater, .text "u"⟩), (.and, ⟨"z", .less, .text "v"⟩)]⟩) none, none⟩
  obtain ⟨hplain, hnodePaths⟩ :
      s.Plain ∧ (s.query owner "//b[@x=1 or @y='u' and @z>2]" .nodeOnly).toOption.map
        (List.map Node.path) = some ["/a/b[@k=2]", "/a/b[@k=3]"] := by
    decide +kernel
  have hpath : (Query.parse "//b[@x=1 or @y='u' and @z>2]").toOption = some q := by decide +kernel
  have hrefused : (Query.parse "//b[@x=1 or @y>'u' and @z<'v']").toOption = some refused := by
    decide +kernel
  rw [toOption_eq_some_iff] at hpath hrefused
  obtain ⟨rows, nodes, hquery, -, hpaths, -, hrows, -⟩ :=
    (query_conditions hpath rfl rfl).1 history owner .nodeOnly (by decide) hplain
      (by decide +kernel)
  have hfound := eq_of_toOption_map hquery hnodePaths
  exact ⟨hplain, hpath, ⟨rows, nodes, hquery, hfound, hpaths.symm.trans hfound, hrows⟩,
    fun s => (query_conditions hrefused rfl rfl).2.2 ⟨"y", .greater, .text "u"⟩ (by decide) s owner
      .nodeOnly⟩

/-- A group that repeats a condition makes the set of the condition. -/
theorem foldl_join_repeated (single : Condition → Set Row) (c : Condition) (more : Nat) :
    (ConditionGroup.repeated c more).rest.foldl
      (fun found joined => joined.1.join found (single joined.2)) (single c) = single c := by
  show (List.replicate more (Connective.and, c)).foldl _ _ = _
  induction more with
  | zero => rfl
  | succ more ih =>
      have hself : Connective.and.join (single c) (single c) = single c := Set.inter_self _
      rw [List.replicate_succ, List.foldl_cons, hself]
      exact ih

/-- Asked a thousand times whether its leaf is one, a row is in the intersection of all the
sets, but the query is refused. -/
theorem query_of_thousand_conditions :
    let owner : Owner := ⟨1, 1, "d", "o"⟩
    let leaves : Leaves := [("x", .number (.integer 1))]
    let history : List Operation := [.request .readWrite (.createDataspace "d"),
      .request .readWrite (.createOwner ⟨1, "d"⟩ "o"),
      .request .readWrite (.write owner (.store [.mk "/a" leaves []]))]
    let s := Store.empty.after history
    let r : Row := ⟨1, 1, "/a", none, leaves.text⟩
    let g : ConditionGroup := .repeated ⟨"x", .equal, .integer 1⟩ 999
    let q : Query := ⟨.absolute, [], "a", .filtered (some g) none, none⟩
    let single (c : Condition) : Set Row := s.rowsFound 1 (q.withCondition c)
    s.Plain ∧ Query.parse q.normalized = .ok q
      ∧ (∀ c ∈ q.conditionList, c.isTextOrder = false)
      ∧ r ∈ g.rest.foldl (fun found joined => joined.1.join found (single joined.2))
        (single g.first)
      ∧ s.query owner q.normalized .nodeOnly = .error (.engine .deepExpression) := by
  intro owner leaves history s r g q single
  let place : Query := ⟨.absolute, [], "a", .filtered none none, none⟩
  let c : Condition := ⟨"x", .equal, .integer 1⟩
  have hsingle : (Query.parse "/a[@x=1]").toOption = some (place.repeating c 0) := by
    decide +kernel
  obtain ⟨hplain, hselect⟩ : s.Plain
      ∧ (s.select (.owner 1) ⟨place.withCondition c, none⟩).toOption = some [r] := by
    decide +kernel
  have hpath : Query.parse q.normalized = .ok q :=
    parse_repeating (toOption_eq_some_iff.mp hsingle) 999
  have hdeep : (⟨q, none⟩ : Selector).fits (.owner 1) = false :=
    not_fits_of_length (Nat.le_of_eq (length_conditionList_repeating place c 999).symm) _ _
  refine ⟨hplain, hpath, isTextOrder_repeating place 999 rfl, ?_,
    query_of_not_fits hpath (selector_repeating (q := place) rfl rfl 999) hdeep .nodeOnly⟩
  have hfound : r ∈ single c :=
    ⟨[r], toOption_eq_some_iff.mp hselect, List.mem_singleton_self r⟩
  exact (foldl_join_repeated single c 999).symm ▸ hfound

end DataTree
