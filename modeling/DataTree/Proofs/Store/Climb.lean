import DataTree.Proofs.Path.Axis
import DataTree.Proofs.Store.Queries

/-!
# Climbing to the nearest rows

A query with an ancestor axis asks for the nearest row above each of its matches
that has a path asked for.  One walk finds them all: it starts at the parents of
the matches, passes through rows that do not have the path and ends at rows that
do.  Walks meet where matches share rows above them, and run through rows that are
matches themselves; each row goes on in the same way whoever came by, so together
they reach what each match would reach alone.

## Main definitions

* `Above` — a row is above another, not counting the row itself.
* `NearestTo` — a row with a property is the nearest one above a row.
* `Climbed` — the rows that the walk from some rows reaches.

## Main results

* `climbed_iff` — the walk ends at the rows that are nearest above some match.
* `nearest_eq_some_iff`, `mem_nearestAbove_iff` — the rows that an axis finds.
* `query_axis` — the rows of a query with an ancestor axis.
-/

namespace DataTree

open DataTree.Path

/-- Whether a row is above another: at its parent or further up. -/
def Above (rows : List Row) (a r : Row) : Prop := ∃ q, AtOrBelow rows a q ∧ r.parent = some q.id

/-- Whether `a` is the nearest row above `r` with a property: it has the property,
and so does no row above `r` but `a` and rows above it. -/
structure NearestTo (rows : List Row) (p : Row → Bool) (r a : Row) : Prop where
  above : Above rows a r
  has : p a = true
  first : ∀ b, Above rows b r → p b = true → AtOrBelow rows b a

/-- The rows that a walk reaches: it starts at the parents of some rows and goes on
to the parent of every row without the property. -/
inductive Climbed (rows : List Row) (p : Row → Bool) (starts : List Row) : Row → Prop where
  | start {r a : Row} : r ∈ starts → a ∈ rows → r.parent = some a.id → Climbed rows p starts a
  | step {a b : Row} : Climbed rows p starts a → p a = false → b ∈ rows →
      a.parent = some b.id → Climbed rows p starts b

/-! ## One row at a time -/

section

variable {rows : List Row} {p : Row → Bool} {q r a : Row}

theorem above_of_parent (ho : Ordered rows) (hq : q ∈ rows) (hparent : r.parent = some q.id) :
    Above rows a r ↔ AtOrBelow rows a q := by
  constructor
  · rintro ⟨q', ha, hparent'⟩
    rw [hparent] at hparent'
    rwa [ho.eq_of_id hq ha.mem (Option.some.inj hparent')]
  · intro ha
    exact ⟨q, ha, hparent⟩

theorem atOrBelow_iff (hr : r ∈ rows) : AtOrBelow rows a r ↔ a = r ∨ Above rows a r := by
  constructor
  · intro h
    rcases h.eq_or_step with heq | hstep
    · exact .inl heq
    · exact .inr hstep
  · rintro (rfl | ⟨q, hq, hparent⟩)
    · exact .self hr
    · exact hq.step hr hparent

theorem Above.lt (h : Above rows a r) (ho : Ordered rows) (hr : r ∈ rows) : a.id < r.id := by
  obtain ⟨q, hq, hparent⟩ := h
  exact Nat.lt_of_le_of_lt (hq.le ho) (ho.parents r hr q.id hparent)

/-- The nearest row above a row is its parent, or the one nearest to that. -/
theorem nearestTo_iff (ho : Ordered rows) (hq : q ∈ rows) (hparent : r.parent = some q.id) :
    NearestTo rows p r a ↔ if p q = true then q = a else NearestTo rows p q a := by
  have habove : ∀ b, Above rows b r ↔ b = q ∨ Above rows b q := fun b =>
    (above_of_parent ho hq hparent).trans (atOrBelow_iff hq)
  split
  · rename_i hp
    constructor
    · intro h
      have hqa := h.first q ((habove q).mpr (.inl rfl)) hp
      rcases (habove a).mp h.above with rfl | ha
      · rfl
      · have hlt := ha.lt ho hq
        have hle := hqa.le ho
        omega
    · rintro rfl
      refine ⟨(habove q).mpr (.inl rfl), hp, fun b hb _ => ?_⟩
      exact (atOrBelow_iff hq).mpr ((habove b).mp hb)
  · rename_i hp
    constructor
    · intro h
      refine ⟨?_, h.has, fun b hb hpb => h.first b ((habove b).mpr (.inr hb)) hpb⟩
      rcases (habove a).mp h.above with rfl | ha
      · exact absurd h.has hp
      · exact ha
    · intro h
      refine ⟨(habove a).mpr (.inr h.above), h.has, fun b hb hpb => ?_⟩
      rcases (habove b).mp hb with rfl | hb
      · exact absurd hpb hp
      · exact h.first b hb hpb

end

/-! ## The walk -/

section

variable {rows : List Row} {p : Row → Bool} {starts : List Row} {a : Row}

/-- What is nearest above a row that the walk passes is nearest above one that it
started from. -/
theorem Climbed.exists_start (ho : Ordered rows) {q : Row} (h : Climbed rows p starts q)
    (hnear : if p q = true then q = a else NearestTo rows p q a) :
    ∃ r ∈ starts, NearestTo rows p r a := by
  induction h with
  | start hr hq hparent => exact ⟨_, hr, (nearestTo_iff ho hq hparent).mpr hnear⟩
  | step _ hp hb hparent ih =>
      refine ih ?_
      rw [hp]
      exact (nearestTo_iff ho hb hparent).mpr hnear

/-- The walk goes on to what is nearest above a row without the property. -/
theorem Climbed.of_nearestTo (ho : Ordered rows) {q b : Row} (hq : Climbed rows p starts q)
    (hp : p q = false) (hbelow : AtOrBelow rows a b) (hparent : q.parent = some b.id)
    (hnear : NearestTo rows p q a) : Climbed rows p starts a := by
  induction hbelow generalizing q with
  | self ha => exact hq.step hp ha hparent
  | @step c b hac hb hcb ih =>
      have hclimbed := hq.step hp hb hparent
      have hnext := (nearestTo_iff ho hb hparent).mp hnear
      split at hnext
      · rename_i hpb
        rw [hnext] at hclimbed
        exact hclimbed
      · rename_i hpb
        exact ih hclimbed (Bool.not_eq_true _ ▸ hpb) hcb hnext

/-- The walk ends at the rows that are nearest above a row that it started from. -/
theorem climbed_iff (ho : Ordered rows) :
    Climbed rows p starts a ∧ p a = true ↔ ∃ r ∈ starts, NearestTo rows p r a := by
  constructor
  · rintro ⟨h, hp⟩
    exact h.exists_start ho (by rw [hp]; rfl)
  · rintro ⟨r, hr, hnear⟩
    refine ⟨?_, hnear.has⟩
    obtain ⟨q, hq, hparent⟩ := hnear.above
    have hclimbed : Climbed rows p starts q := .start hr hq.mem hparent
    have hnext := (nearestTo_iff ho hq.mem hparent).mp hnear
    split at hnext
    · rw [hnext] at hclimbed
      exact hclimbed
    · rename_i hp
      rcases hq.eq_or_step with rfl | ⟨b, hb, hparent⟩
      · exact hclimbed
      · exact hclimbed.of_nearestTo ho (Bool.not_eq_true _ ▸ hp) hb hparent hnext

end

/-! ## Rows latest first -/

section

variable {p : Row → Bool} {r a : Row}

/-- Looking through the latest rows of a table that hold the parent of a row, if there
is one, finds what is nearest above it. -/
theorem nearest_eq_some_iff_of_latest {rows latest rest : List Row} (ho : Ordered rows)
    (hrows : rows = latest.reverse ++ rest)
    (hparent : ∀ q ∈ rows, r.parent = some q.id → q ∈ latest) :
    nearest p r.parent latest = some a ↔ NearestTo rows p r a := by
  induction latest generalizing rest r with
  | nil =>
      constructor
      · intro h
        cases h
      · intro h
        obtain ⟨q, hq, hq'⟩ := h.above
        cases hparent q hq.mem hq'
  | cons x latest ih =>
      have hrows' : rows = latest.reverse ++ x :: rest := by simp [hrows]
      have hx : x ∈ rows := by simp [hrows]
      rw [nearest]
      by_cases hstart : r.parent = some x.id
      · rw [if_pos hstart, nearestTo_iff ho hx hstart]
        split
        · exact Option.some_inj
        · refine ih hrows' fun q hq hxq => ?_
          have hlt := ho.parents x hx q.id hxq
          rw [hrows'] at ho hq
          exact List.mem_reverse.mp (ho.mem_left_of_lt hq hlt)
      · rw [if_neg hstart]
        refine ih hrows' fun q hq hrq => ?_
        rcases List.mem_cons.mp (hparent q hq hrq) with rfl | hmem
        · exact absurd hrq hstart
        · exact hmem

theorem nearest_eq_some_iff {rows : List Row} (ho : Ordered rows) :
    nearest p r.parent rows.reverse = some a ↔ NearestTo rows p r a := by
  have hrows : rows = rows.reverse.reverse ++ [] := by simp
  exact nearest_eq_some_iff_of_latest ho hrows fun q hq _ => List.mem_reverse.mpr hq

/-- The rows that an axis finds from some rows: those that the walk from them ends at. -/
theorem mem_nearestAbove_iff {s : Store} (ho : Ordered s.rows) {rows : List Row} :
    a ∈ nearestAbove s p rows ↔ ∃ r ∈ rows, NearestTo s.rows p r a := by
  have hmem : ∀ {r a}, NearestTo s.rows p r a → a ∈ s.rows := by
    intro r a h
    obtain ⟨_, hq, -⟩ := h.above
    exact hq.mem_top
  simp only [nearestAbove, List.mem_filter, List.contains_iff_mem, List.mem_filterMap,
    Option.map_eq_some_iff, nearest_eq_some_iff ho]
  constructor
  · rintro ⟨ha, r, hr, b, hb, hid⟩
    rw [ho.eq_of_id (hmem hb) ha hid] at hb
    exact ⟨r, hr, hb⟩
  · rintro ⟨r, hr, ha⟩
    exact ⟨hmem ha, r, hr, a, ha, rfl⟩

end

/-! ## Queries with an axis -/

/-- Whether the leaves of a row satisfy the conditions of a query. -/
def Path.Query.Satisfied (q : Query) (r : Row) : Prop :=
  ∀ g, q.conditions = some g → ∃ d, storedDocument? r.attributes = some d ∧ g.holds d = true

section

variable {a : Query} {t : Trail Step} (h : a.written = ⟨.descendant, t.map Step.written, none⟩)

include h

theorem checkConditions_of_target : checkConditions a.conditionList = .ok () := by
  obtain ⟨conditions, hselection, hkeys⟩ := selection_of_target h
  have hconditions : a.conditions = conditions := by rw [Query.conditions, hselection]
  refine checkConditions_of_forall fun c hc => ?_
  rw [Query.conditionList, hconditions] at hc
  cases conditions with
  | none => cases hc
  | some g =>
      obtain ⟨keys, rfl⟩ := hkeys g rfl
      have hequal : c.comparison = .equal := by
        rcases List.mem_cons.mp hc with rfl | hc
        · rfl
        · simp only [KeyGroup.toConditions, List.map_map, List.mem_map] at hc
          obtain ⟨k, -, rfl⟩ := hc
          rfl
      rw [Condition.isTextOrder, hequal]
      split <;> rfl

theorem admitsRow_of_target {r : Row} (hread : (storedDocument? r.attributes).isSome = true) :
    a.admitsRow r = true ↔ a.Satisfied r := by
  obtain ⟨conditions, hselection, -⟩ := selection_of_target h
  obtain ⟨d, hd⟩ := Option.isSome_iff_exists.mp hread
  cases conditions with
  | none =>
      simp [Query.admitsRow, Query.readsLeaves, Query.Satisfied, Query.conditions, Query.leafText,
        Query.contains, hselection]
  | some g =>
      simp [Query.admitsRow, Query.readsLeaves, Query.admits, Query.Satisfied, Query.conditions,
        Query.leafText, Query.contains, hselection, hd]

end

/-- A query with an axis that orders by no quoted value selects by its target too. -/
theorem selector_of_axis {path : String} {q a : Query} (hpath : Query.parse path = .ok q)
    (haxis : q.ancestorQuery = some (.ok a))
    (hquoted : ∀ c ∈ q.conditionList, c.isTextOrder = false) : q.selector = .ok ⟨q, some a⟩ := by
  obtain ⟨t, -, hwritten⟩ := written_of_ancestorQuery hpath haxis
  rw [Query.selector, checkConditions_of_forall hquoted, haxis]
  show (do checkConditions a.conditionList; _ : Except PathError Selector) = _
  rw [checkConditions_of_target hwritten]
  rfl

/-- Whatever operations have been run, as long as stored leaves are scalars and lists of
scalars, a query with an ancestor axis that orders by no quoted value succeeds, unless its
statement nests too deep: then it is refused, whatever is stored.  It finds, each once and
in the order of their ids, the rows that have the path of the target and are nearest so
above a row that the query without the axis finds, as far as they satisfy the conditions of
the target; one that does not gives way to no other.  These are the rows at which the walk
from all the matches ends. -/
theorem query_axis {history : List Operation} {path : String} {q a : Query} (owner : Owner)
    (fetch : Fetch) (hplain : (Store.empty.after history).Plain)
    (hpath : Query.parse path = .ok q) (haxis : q.ancestorQuery = some (.ok a))
    (hquoted : ∀ c ∈ q.conditionList, c.isTextOrder = false) :
    let s := Store.empty.after history
    ((⟨q, some a⟩ : Selector).fits (.owner owner.id) = false → ∀ stored : Store,
        stored.query owner path fetch = .error (.engine .deepExpression))
      ∧ ((⟨q, some a⟩ : Selector).fits (.owner owner.id) = true →
        ∃ matched rows name nodes, a.descendantName = some name
          ∧ s.select (.owner owner.id) ⟨q.withoutAxis, none⟩ = .ok matched
          ∧ s.query owner q.withoutAxis.normalized fetch = s.nodes fetch matched
          ∧ s.query owner path fetch = .ok nodes ∧ s.nodes fetch rows = .ok nodes
          ∧ nodes.map Node.path = rows.map Row.path
          ∧ (rows.Pairwise fun r r' => r.id < r'.id)
          ∧ (∀ r, r ∈ rows
            ↔ (∃ m ∈ matched, NearestTo s.rows (pathMatches ·.path name true) m r)
              ∧ a.Satisfied r)
          ∧ ∀ r, r ∈ rows ↔ Climbed s.rows (pathMatches ·.path name true) matched r
            ∧ pathMatches r.path name true = true ∧ a.Satisfied r) := by
  intro s
  have hs := sound_after history
  have hread := readable_after hplain
  obtain ⟨t, -, hwritten⟩ := written_of_ancestorQuery hpath haxis
  obtain ⟨name, hname⟩ := exists_descendantName hwritten
  let isTarget (r : Row) : Bool := pathMatches r.path name true
  let matched := (s.rows.filter (isNamed s (.owner owner.id) q)).filter q.admitsRow
  let rows := (nearestAbove s isTarget matched).filter a.admitsRow
  have hselector := selector_of_axis hpath haxis hquoted
  refine ⟨fun hdeep stored => query_of_not_fits hpath hselector hdeep fetch, fun hfits => ?_⟩
  have hselectorWithout : q.withoutAxis.selector = .ok ⟨q.withoutAxis, none⟩ :=
    selector_of_forall rfl hquoted
  have hmatched : s.select (.owner owner.id) ⟨q.withoutAxis, none⟩ = .ok matched :=
    select_of_readable (q := q.withoutAxis) hread (fits_of_axis hfits)
  have hstored : ∀ r ∈ nearestAbove s isTarget matched, r ∈ s.rows :=
    fun r hr => (List.mem_filter.mp hr).1
  have hrows : s.select (.owner owner.id) ⟨q, some a⟩ = .ok rows := by
    rw [select_axis_of_readable hread hfits, hname]
    rfl
  have hmem : ∀ r, r ∈ rows ↔ (∃ m ∈ matched, NearestTo s.rows isTarget m r) ∧ a.Satisfied r := by
    intro r
    rw [List.mem_filter, ← mem_nearestAbove_iff hs.ordered]
    refine and_congr_right fun hr => ?_
    exact admitsRow_of_target hwritten (hread r (hstored r hr))
  obtain ⟨nodes, hnodes, hpaths⟩ := exists_nodes hplain fetch fun r hr =>
    hstored r (List.mem_filter.mp hr).1
  refine ⟨matched, rows, name, nodes, hname, hmatched, ?_, ?_, hnodes, hpaths, ?_, hmem, ?_⟩
  · rw [query_of_selector (parse_withoutAxis hpath) hselectorWithout, hmatched]
    rfl
  · rw [query_of_selector hpath hselector, hrows]
    exact hnodes
  · exact (hs.ids.filter _).filter _
  · intro r
    rw [hmem r, ← climbed_iff hs.ordered, and_assoc]

/-- Of the two matches one has `/a/a` as the nearest row above it, which fails the
condition, and the other one `/a`, beyond a row without the path. -/
theorem query_axis_of_nested_lists :
    let inner : Node := .mk "/a/a" [("v", .number (.integer 2))] [("/a/a/c", .leafless "/a/a/c")]
    let between : Node := .mk "/a/b" [] [("/a/b/c", .leafless "/a/b/c")]
    let tree : Node := .mk "/a" [("v", .number (.integer 1))] [("/a/a", inner), ("/a/b", between)]
    let owner : Owner := ⟨1, 1, "d", "o"⟩
    let history : List Operation := [.request .readWrite (.createDataspace "d"),
      .request .readWrite (.createOwner ⟨1, "d"⟩ "o"),
      .request .readWrite (.write owner (.store [tree]))]
    let s := Store.empty.after history
    s.Plain ∧ ∃ (q a : Query) (matched rows : List Row) (nodes : List Node),
      Query.parse "//c/ancestor::a[@v=1]" = .ok q
      ∧ q.ancestorQuery = some (.ok a)
      ∧ s.select (.owner 1) ⟨q.withoutAxis, none⟩ = .ok matched
      ∧ matched.map Row.path = ["/a/a/c", "/a/b/c"]
      ∧ s.query owner "//c/ancestor::a[@v=1]" .nodeOnly = .ok nodes
      ∧ nodes.map Node.path = ["/a"] ∧ rows.map Row.path = ["/a"]
      ∧ ∀ r, r ∈ rows ↔ (∃ m ∈ matched, NearestTo s.rows (pathMatches ·.path "a" true) m r)
        ∧ a.Satisfied r := by
  intro inner between tree owner history s
  let q : Query := ⟨.descendant, [], "c", .filtered none none,
    some ⟨[], ⟨"a", [⟨⟨"v", .integer 1⟩, []⟩]⟩⟩⟩
  let a : Query :=
    ⟨.descendant, [], "a", .filtered (some ⟨⟨"v", .equal, .integer 1⟩, []⟩) none, none⟩
  have hplain : s.Plain := by decide +kernel
  have hpath : (Query.parse "//c/ancestor::a[@v=1]").toOption = some q := by decide +kernel
  have htarget : (Query.parse "//a[@v=1]").toOption = some a := by decide +kernel
  rw [toOption_eq_some_iff] at hpath htarget
  have haxis : q.ancestorQuery = some (.ok a) := congrArg some htarget
  have hmatchedPaths : ((s.select (.owner 1) ⟨q.withoutAxis, none⟩).toOption.map
      (List.map Row.path)) = some ["/a/a/c", "/a/b/c"] := by
    decide +kernel
  have hnodePaths : ((s.query owner "//c/ancestor::a[@v=1]" .nodeOnly).toOption.map
      (List.map Node.path)) = some ["/a"] := by
    decide +kernel
  obtain ⟨matched, rows, name, nodes, hname, hmatched, -, hquery, -, hpaths, -, hrows, -⟩ :=
    (query_axis owner .nodeOnly hplain hpath haxis fun c hc => by cases hc).2 (by decide +kernel)
  have hnameA : a.descendantName = some "a" := by decide +kernel
  obtain rfl : name = "a" := Option.some.inj (hname.symm.trans hnameA)
  have hfound := eq_of_toOption_map hquery hnodePaths
  exact ⟨hplain, q, a, matched, rows, nodes, hpath, haxis, hmatched,
    eq_of_toOption_map hmatched hmatchedPaths, hquery, hfound, hpaths.symm.trans hfound, hrows⟩

/-- Asked 600 times whether it is one, a leaf below `/a` is found, but not the row above it. -/
theorem query_axis_refused :
    let element : Node := .mk "/a/b" [("x", .number (.integer 1))] []
    let owner : Owner := ⟨1, 1, "d", "o"⟩
    let history : List Operation := [.request .readWrite (.createDataspace "d"),
      .request .readWrite (.createOwner ⟨1, "d"⟩ "o"),
      .request .readWrite (.write owner (.store [.mk "/a" [] [(element.path, element)]]))]
    let s := Store.empty.after history
    let place : Query := ⟨.descendant, [], "b", .filtered none none, some ⟨[], ⟨"a", []⟩⟩⟩
    let q := place.repeating ⟨"x", .equal, .integer 1⟩ 599
    let a : Query := ⟨.descendant, [], "a", .filtered none none, none⟩
    let m : Row := ⟨2, 1, "/a/b", some 1, element.leaves.text⟩
    let top : Row := ⟨1, 1, "/a", none, Leaves.text []⟩
    s.Plain ∧ Query.parse q.normalized = .ok q ∧ q.ancestorQuery = some (.ok a)
      ∧ (∀ c ∈ q.conditionList, c.isTextOrder = false)
      ∧ s.select (.owner 1) ⟨q.withoutAxis, none⟩ = .ok [m]
      ∧ NearestTo s.rows (pathMatches ·.path "a" true) m top ∧ a.Satisfied top
      ∧ s.query owner q.normalized .nodeOnly = .error (.engine .deepExpression) := by
  intro element owner history s place q a m top
  let c : Condition := ⟨"x", .equal, .integer 1⟩
  obtain ⟨hsingle, htarget⟩ :
      (Query.parse "//b[@x=1]/ancestor::a").toOption = some (place.repeating c 0)
        ∧ (Query.parse "//a").toOption = some a := by
    decide +kernel
  obtain ⟨hplain, htop, hpicked⟩ : s.Plain ∧ top ∈ s.rows
      ∧ (s.pick (.owner 1) ⟨place.withoutAxis.repeating c 0, none⟩).toOption = some [m] := by
    decide +kernel
  have hpath : Query.parse q.normalized = .ok q :=
    parse_repeating (toOption_eq_some_iff.mp hsingle) 599
  have haxis : q.ancestorQuery = some (.ok a) :=
    congrArg some (toOption_eq_some_iff.mp htarget)
  have hquoted : ∀ c ∈ q.conditionList, c.isTextOrder = false :=
    isTextOrder_repeating place 599 rfl
  have hlength : ∀ q : Query, (q.repeating c 599).conditionList.length = 600 :=
    fun q => length_conditionList_repeating q c 599
  have hselect : s.select (.owner 1) ⟨place.withoutAxis.repeating c 599, none⟩ = .ok [m] := by
    have hfits := fits_none_of_length (q := place.withoutAxis.repeating c 599)
      (by rw [hlength]; decide) (.owner 1)
    rw [Store.select_of_fits s hfits, pick_repeating]
    exact toOption_eq_some_iff.mp hpicked
  have hdeep : (⟨q, some a⟩ : Selector).fits (.owner 1) = false :=
    not_fits_some_of_length (by rw [hlength]; decide) _
  refine ⟨hplain, hpath, haxis, hquoted, hselect, ?_, nofun,
    query_of_not_fits hpath (selector_of_axis hpath haxis hquoted) hdeep .nodeOnly⟩
  have hordered := (sound_after history).ordered
  exact (nearestTo_iff hordered htop rfl).mpr ((if_pos (by decide +kernel)).mpr rfl)

end DataTree
