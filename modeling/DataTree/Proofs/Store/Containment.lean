import DataTree.Proofs.Store.Climb
import DataTree.Proofs.Store.LeafConditions

/-!
# Equal and contained texts

A leaf that is equal to a quoted text contains it too: both look at one text of the leaf.
The exception are booleans, which are equal to the words `true` and `false` but are searched
as digits, so that none of them contains the word it is equal to.  A query that asks for a
containment instead of an equality finds the same rows and more but for those.  Its statement
nests just as deep.

## Main definitions

* `Query.quoting`, `Query.containing` — a query that asks for a text in the one way and in
  the other.
* `Leaves.TruthAt` — whether a leaf is the boolean of a word.
* `Query.axisTarget` — the target of the axis of a query, as a query of its own.

## Main results

* `searchable_eq_of_quotable` — the text that is compared is the one that is searched.
* `isContained_iff_of_meets` — what is equal is contained unless it is a boolean.
* `fits_containing` — the engine takes both queries or none.
* `select_containing` — the rows of the two queries.
-/

namespace DataTree

open DataTree.Path

/-! ## Texts -/

theorem occursIn_self (cs : List Char) : occursIn cs cs = true := by
  cases cs with
  | nil => rfl
  | cons c cs => simp [occursIn]

/-- A leaf other than a boolean has one text, to compare and to search. -/
theorem LeafValue.searchable_eq_of_quotable {leaf : LeafValue} (hbool : ∀ b, leaf ≠ .bool b)
    {t : String} (h : leaf.quotable = some t) : leaf.searchable = some t := by
  cases leaf with
  | bool b => exact absurd rfl (hbool b)
  | number n => exact h
  | text s => exact h
  | null => cases h
  | composite s => cases h

/-- The word of a boolean. -/
def truthWord (b : Bool) : String := if b then "true" else "false"

/-- The digit that stands for a boolean in searches does not contain its word. -/
theorem not_occursIn_truthWord (b : Bool) :
    occursIn (truthWord b).toList (if b then "1" else "0" : String).toList = false := by
  cases b <;> decide +kernel

/-! ## Queries -/

namespace Path

/-- A query whose last step asks that a leaf is equal to a text. -/
def Query.quoting (q : Query) (x v : String) : Query :=
  q.filteredBy (some ⟨⟨x, .equal, .text v⟩, []⟩) none

/-- A query whose last step asks that a leaf contains a text. -/
def Query.containing (q : Query) (x v : String) : Query := q.filteredBy none (some ⟨x, v⟩)

/-- The containment can be written if the equality can be. -/
theorem parse_containing {path : String} {q : Query} {x v : String}
    (hpath : Query.parse path = .ok (q.quoting x v)) :
    Query.parse (q.containing x v).normalized = .ok (q.containing x v) := by
  obtain ⟨w, hw⟩ := exists_predicateAs (g := ⟨⟨x, .equal, .text v⟩, []⟩) rfl hpath
  obtain ⟨_, _, _, _, hname, -, -, hquoted, -⟩ :=
    conditionAs_of_predicateAs hw _ List.mem_cons_self
  refine parse_filteredBy (q := q.quoting x v) hpath rfl (fun g hg => by cases hg) fun t ht => ?_
  obtain rfl := Option.mem_some_iff.mp ht
  exact ⟨_, [], _, blank_nil,
    .contains blank_nil blank_nil blank_nil blank_nil blank_nil hname hquoted, rfl⟩

/-- Both ask for as much of a row. -/
theorem Query.rowShape_containing (q : Query) (x v : String) (scope : Scope) :
    ((q.containing x v).rowShape scope).Within ((q.quoting x v).rowShape scope)
      ∧ ((q.quoting x v).rowShape scope).Within ((q.containing x v).rowShape scope) := by
  have hparts : ∀ e e' : Shape, e.depth = 6 ∧ e.reach = 0 → e'.depth = 6 ∧ e'.reach = 0 →
      (Shape.both ((q.filteredBy none none).rowShape scope) e).Within
        (.both ((q.filteredBy none none).rowShape scope) e') := by
    rintro e e' ⟨hdepth, hreach⟩ ⟨hdepth', hreach'⟩
    exact (Shape.Within.refl _).both ⟨by omega, by omega⟩
  rw [containing, quoting, rowShape_filteredBy q scope (some _), rowShape_filteredBy q scope none]
  exact ⟨hparts _ _ ⟨rfl, rfl⟩ ⟨rfl, rfl⟩, hparts _ _ ⟨rfl, rfl⟩ ⟨rfl, rfl⟩⟩

/-- So the engine takes both queries or none. -/
theorem fits_containing (q : Query) (x v : String) (target : Option Query) (scope : Scope) :
    (⟨q.containing x v, target⟩ : Selector).fits scope
      = (⟨q.quoting x v, target⟩ : Selector).fits scope := by
  obtain ⟨hcontaining, hquoting⟩ := q.rowShape_containing x v scope
  rw [Bool.eq_iff_iff]
  exact ⟨fits_of_within hquoting, fits_of_within hcontaining⟩

/-- The target of the axis of a query, as a query of its own, if it has one. -/
def Query.axisTarget (q : Query) : Except PathError (Option Query) :=
  match q.ancestorQuery with
  | none => .ok none
  | some found => found >>= fun a => (checkConditions a.conditionList).map fun _ => some a

theorem Query.selector_eq {q : Query} (h : checkConditions q.conditionList = .ok ()) :
    q.selector = q.axisTarget.map (Selector.mk q) := by
  rw [Query.selector, h, Query.axisTarget]
  cases q.ancestorQuery with
  | none => rfl
  | some found =>
      cases found with
      | error e => rfl
      | ok a =>
          simp only [bind, Except.bind]
          cases checkConditions a.conditionList <;> rfl

end Path

/-! ## Leaves -/

/-- Whether the leaf of a name is the boolean of a word. -/
def Leaves.TruthAt (leaves : Leaves) (x v : String) : Prop :=
  ∃ b, Keyed.find? x leaves = some (.bool b) ∧ v = truthWord b

section

variable {r : Row} {stored leaves : Leaves} (hstored : stored.Held)
  (htext : r.attributes = stored.text) (hparse : Leaves.parse r.attributes = some leaves)
  {x v : String}

include hstored htext hparse

theorem truthAt_iff : leaves.TruthAt x v
    ↔ ∃ w, Keyed.find? x stored = some w ∧ ∃ b, w = .bool b ∧ v = truthWord b := by
  obtain ⟨hmembers, -⟩ := Leaves.alike_of_parse_text hstored (htext ▸ hparse)
  rw [hmembers.exists_find?_iff (P := fun w => ∃ b, w = .bool b ∧ v = truthWord b)
    fun _ _ h => exists_congr fun b => and_congr_left' (h.eq_bool_iff b)]
  constructor
  · rintro ⟨b, hb, hv⟩
    exact ⟨_, hb, b, rfl, hv⟩
  · rintro ⟨_, hb, b, rfl, hv⟩
    exact ⟨b, hb, hv⟩

theorem isContained_iff_seen {d : Document} (hd : storedDocument? r.attributes = some d) :
    (LeafText.mk x v).isContained d = true ↔ ∃ w, Keyed.find? x stored = some w
      ∧ ∃ t, w.seen.searchable = some t ∧ occursIn v.toList t.toList = true := by
  rw [storedDocument?_of_held hstored htext hparse] at hd
  obtain rfl := Option.some.inj hd
  rw [LeafText.isContained, Json.member?_memberDocuments]
  cases hfind : Keyed.find? x stored with
  | none => simp
  | some w =>
      have hseen : LeafValue.ofDocument w.document = w.seen := rfl
      simp only [Option.map_some, Option.bind_some, Option.some_inj, exists_eq_left', hseen]
      cases w.seen.searchable <;> simp

/-- A leaf that is equal to a text contains it, unless it is a boolean, which does not. -/
theorem isContained_iff_of_meets (h : r.Meets ⟨x, .equal, .text v⟩) {d : Document}
    (hd : storedDocument? r.attributes = some d) :
    (LeafText.mk x v).isContained d = true ↔ ¬leaves.TruthAt x v := by
  obtain ⟨w, hw, hquotable⟩ := (meets_quoted_iff_seen hstored htext hparse).mp h
  rw [isContained_iff_seen hstored htext hparse hd, truthAt_iff hstored htext hparse]
  simp only [hw, Option.some_inj, exists_eq_left']
  by_cases hbool : ∃ b, w = .bool b
  · obtain ⟨b, rfl⟩ := hbool
    obtain rfl : truthWord b = v := Option.some.inj hquotable
    have hnot := not_occursIn_truthWord b
    simp [LeafValue.searchable, hnot]
  · have hseen : ∀ b, w.seen ≠ .bool b := fun b hb => hbool ⟨b, Json.seen_eq_bool_iff.mp hb⟩
    have htruth : ¬∃ b, w = .bool b ∧ v = truthWord b := fun ⟨b, hb, _⟩ => hbool ⟨b, hb⟩
    simp [LeafValue.searchable_eq_of_quotable hseen hquotable, occursIn_self, htruth]

end

/-! ## Rows -/

/-- Whether a leaf of a row is the boolean of a word. -/
def Row.TruthAt (r : Row) (x v : String) : Prop :=
  ∃ leaves, Leaves.parse r.attributes = some leaves ∧ leaves.TruthAt x v

section

variable {s : Store} (hread : ∀ r ∈ s.rows, (storedDocument? r.attributes).isSome = true)
  (hplain : s.Plain)
  (hheld : ∀ r ∈ s.rows, ∃ stored : Leaves, stored.Held ∧ r.attributes = stored.text)
  {q : Query} {x v : String}

include hread hplain hheld

/-- A row that the equality admits is admitted by the containment but for booleans. -/
theorem admitsRow_containing_iff {r : Row} (hr : r ∈ s.rows)
    (h : (q.quoting x v).admitsRow r = true) :
    (q.containing x v).admitsRow r = true ↔ ¬r.TruthAt x v := by
  obtain ⟨d, hd⟩ := Option.isSome_iff_exists.mp (hread r hr)
  obtain ⟨leaves, hparse, -⟩ := hplain r hr
  obtain ⟨stored, hstored, htext⟩ := hheld r hr
  rw [admitsRow_of_filtered (some _) none rfl hd] at h
  rw [admitsRow_of_filtered none (some _) rfl hd]
  have hmeets : r.Meets ⟨x, .equal, .text v⟩ := ⟨d, hd, by simpa [ConditionGroup.holds] using h⟩
  simpa [Row.TruthAt, hparse] using isContained_iff_of_meets hstored htext hparse hmeets hd

/-- A query without an axis that asks for the containment finds of the rows of the equality
those whose leaf is no boolean.  So does one with an axis if all of them are. -/
theorem select_containing (ho : Ordered s.rows) {scope : Scope} {target : Option Query}
    (hfits : (⟨q.quoting x v, target⟩ : Selector).fits scope = true) :
    ∃ rows rows', s.select scope ⟨q.quoting x v, target⟩ = .ok rows
      ∧ s.select scope ⟨q.containing x v, target⟩ = .ok rows'
      ∧ (target = none → ∀ r ∈ rows, (r ∈ rows' ↔ ¬r.TruthAt x v))
      ∧ ((∀ r ∈ s.rows, isNamed s scope (q.quoting x v) r = true → ¬r.TruthAt x v) →
        ∀ r ∈ rows, r ∈ rows') := by
  have hfits' := (fits_containing q x v target scope).trans hfits
  have hnamed : isNamed s scope (q.containing x v) = isNamed s scope (q.quoting x v) := rfl
  have hmatched : ∀ r ∈ (s.rows.filter (isNamed s scope (q.quoting x v))).filter
      (q.quoting x v).admitsRow, (r ∈ (s.rows.filter (isNamed s scope (q.containing x v))).filter
      (q.containing x v).admitsRow ↔ ¬r.TruthAt x v) := by
    intro r hr
    obtain ⟨hr, hadmits⟩ := List.mem_filter.mp hr
    rw [← admitsRow_containing_iff hread hplain hheld (List.mem_filter.mp hr).1 hadmits,
      List.mem_filter, hnamed, and_iff_right hr]
  cases target with
  | none =>
      refine ⟨_, _, select_of_readable hread hfits, select_of_readable hread hfits',
        fun _ => hmatched, fun hnone r hr => (hmatched r hr).mpr ?_⟩
      obtain ⟨hr, hname⟩ := List.mem_filter.mp (List.mem_filter.mp hr).1
      exact hnone r hr hname
  | some a =>
      refine ⟨_, _, select_axis_of_readable hread hfits,
        select_axis_of_readable hread hfits', nofun, fun hnone r hr => ?_⟩
      obtain ⟨hnear, hadmits⟩ := List.mem_filter.mp hr
      obtain ⟨m, hm, hmr⟩ := (mem_nearestAbove_iff ho).mp hnear
      obtain ⟨hstored, hname⟩ := List.mem_filter.mp (List.mem_filter.mp hm).1
      exact List.mem_filter.mpr ⟨(mem_nearestAbove_iff ho).mpr
        ⟨m, (hmatched m hm).mpr (hnone m hstored hname), hmr⟩, hadmits⟩

end

/-- Whatever operations have been run, as long as stored leaves are scalars and lists of
scalars, a query for the rows with a leaf equal to a text and the query for those with a
leaf that contains it are accepted alike, and the second one finds all rows of the first one
but those whose leaf is the boolean of that word.  With an axis it finds all of them if no
row that the path names has such a leaf; the conditions of the axis may be so many that both
are refused. -/
theorem found_by_containment {history : List Operation}
    (hplain : (Store.empty.after history).Plain)
    (hheld : ∀ operation ∈ history, ∀ w, operation.write? = some w → w.Held) {path : String}
    {q : Query} {x v : String} (hpath : Query.parse path = .ok (q.quoting x v)) :
    let s := Store.empty.after history
    Query.parse (q.containing x v).normalized = .ok (q.containing x v)
      ∧ ∀ path', Query.parse path' = .ok (q.containing x v) →
        (∀ e, readSelector path = .error e ↔ readSelector path' = .error e)
        ∧ ∀ target, readSelector path = .ok ⟨q.quoting x v, target⟩ →
          readSelector path' = .ok ⟨q.containing x v, target⟩
          ∧ ∀ scope,
            let fits := (⟨q.quoting x v, target⟩ : Selector).fits scope
            (target = none → fits = true)
            ∧ (fits = false →
              s.select scope ⟨q.quoting x v, target⟩ = .error (.engine .deepExpression)
              ∧ s.select scope ⟨q.containing x v, target⟩ = .error (.engine .deepExpression))
            ∧ (fits = true →
              ∃ rows rows', s.select scope ⟨q.quoting x v, target⟩ = .ok rows
              ∧ s.select scope ⟨q.containing x v, target⟩ = .ok rows'
              ∧ (target = none → ∀ r ∈ rows, (r ∈ rows' ↔ ¬r.TruthAt x v))
              ∧ ((∀ r ∈ s.rows, isNamed s scope (q.quoting x v) r = true → ¬r.TruthAt x v) →
                ∀ r ∈ rows, r ∈ rows')
              ∧ ∀ (owner : Owner) (fetch : Fetch), scope = .owner owner.id →
                s.query owner path fetch = s.nodes fetch rows
                ∧ s.query owner path' fetch = s.nodes fetch rows') := by
  intro s
  refine ⟨parse_containing hpath, fun path' hpath' => ?_⟩
  have hselector : readSelector path
      = (q.axisTarget.map (Selector.mk (q.quoting x v))).mapError .badPath := by
    rw [readSelector, hpath, ← show (q.quoting x v).axisTarget = q.axisTarget from rfl,
      ← Query.selector_eq rfl]
    rfl
  have hselector' : readSelector path'
      = (q.axisTarget.map (Selector.mk (q.containing x v))).mapError .badPath := by
    rw [readSelector, hpath', ← show (q.containing x v).axisTarget = q.axisTarget from rfl,
      ← Query.selector_eq rfl]
    rfl
  rw [hselector, hselector']
  cases htarget : q.axisTarget with
  | error e =>
      refine ⟨fun _ => Iff.rfl, fun target h => ?_⟩
      cases h
  | ok t =>
      refine ⟨fun e => iff_of_false (fun h => ?_) fun h => ?_, fun target h => ?_⟩ <;> cases h
      refine ⟨rfl, fun scope => ?_⟩
      have hsingle : t = none → (⟨q.quoting x v, t⟩ : Selector).fits scope = true := by
        rintro rfl
        exact fits_withCondition (q.filteredBy none none) ⟨x, .equal, .text v⟩ scope
      refine ⟨hsingle, fun hdeep => ⟨Store.select_of_not_fits s hdeep,
        Store.select_of_not_fits s ((fits_containing q x v t scope).trans hdeep)⟩, fun hfits => ?_⟩
      obtain ⟨rows, rows', hrows, hrows', hplainly, haxis⟩ := select_containing
        (readable_after hplain) hplain (exists_held_text hheld) (sound_after history).ordered hfits
      refine ⟨rows, rows', hrows, hrows', hplainly, haxis, ?_⟩
      rintro owner fetch rfl
      have hquoting : (q.quoting x v).selector = .ok ⟨q.quoting x v, t⟩ := by
        rw [Query.selector_eq rfl, show (q.quoting x v).axisTarget = .ok t from htarget]
        rfl
      have hcontaining : (q.containing x v).selector = .ok ⟨q.containing x v, t⟩ := by
        rw [Query.selector_eq rfl, show (q.containing x v).axisTarget = .ok t from htarget]
        rfl
      rw [query_of_selector hpath hquoting, query_of_selector hpath' hcontaining, hrows, hrows']
      exact ⟨rfl, rfl⟩

/-- A string that is the word of a boolean contains it. -/
theorem found_by_containment_of_string :
    let owner : Owner := ⟨1, 1, "d", "o"⟩
    let request := Operation.request .readWrite
    let leaves : Leaves := [("x", .string "true")]
    let history := [request (.createDataspace "d"), request (.createOwner ⟨1, "d"⟩ "o"),
      request (.write owner (.store [.mk "/a" leaves []]))]
    let s := Store.empty.after history
    let r : Row := ⟨1, 1, "/a", none, leaves.text⟩
    s.Plain ∧ (∀ operation ∈ history, ∀ w, operation.write? = some w → w.Held)
      ∧ ∃ q : Query, Query.parse "/a[@x='true']" = .ok (q.quoting "x" "true")
        ∧ ∃ rows rows', s.query owner "/a[@x='true']" .nodeOnly = s.nodes .nodeOnly rows
          ∧ s.query owner "/a[contains(@x,'true')]" .nodeOnly = s.nodes .nodeOnly rows'
          ∧ r ∈ rows ∧ r ∈ rows' := by
  intro owner request leaves history s r
  let q : Query := ⟨.absolute, [], "a", .filtered none none, none⟩
  have hexact : leaves.Exact := ⟨List.pairwise_singleton _ _, trivial, trivial⟩
  have hleaves : leaves.Held := hexact.held
  have htrees : (Write.store [.mk "/a" leaves []]).trees = [.mk "/a" leaves []] := rfl
  have hheld : ∀ operation ∈ history, ∀ w, operation.write? = some w → w.Held := by
    simpa [history, request, Operation.write?, Write.Held, htrees, Write.merges,
      Node.forall_within_mk, Node.leaves] using hleaves
  have hplain : s.Plain := by decide +kernel
  have hparse : Leaves.parse r.attributes = some leaves :=
    Leaves.parse_text_of_shallow hexact (Leaves.shallow_of_badLeaf? rfl)
  have hpath : (Query.parse "/a[@x='true']").toOption = some (q.quoting "x" "true") := by
    decide +kernel
  have hpath' : (Query.parse "/a[contains(@x,'true')]").toOption
      = some (q.containing "x" "true") := by
    decide +kernel
  have hmatched : (s.select (.owner 1) ⟨q.quoting "x" "true", none⟩).toOption = some [r] := by
    decide +kernel
  rw [toOption_eq_some_iff] at hpath hpath' hmatched
  have hselector : readSelector "/a[@x='true']" = .ok ⟨q.quoting "x" "true", none⟩ := by
    rw [readSelector, hpath]
    rfl
  obtain ⟨-, hcontaining⟩ := found_by_containment hplain hheld hpath
  obtain ⟨-, hrows⟩ := (hcontaining _ hpath').2 none hselector
  obtain ⟨hfits, -, hrows⟩ := hrows (.owner 1)
  obtain ⟨rows, rows', hselect, -, hplainly, -, hquery⟩ := hrows (hfits rfl)
  obtain ⟨hfound, hfound'⟩ := hquery owner .nodeOnly rfl
  obtain rfl := Except.ok.inj (hmatched.symm.trans hselect)
  have hr : r ∈ [r] := List.mem_singleton.mpr rfl
  refine ⟨hplain, hheld, q, hpath, _, rows', hfound, hfound', hr, (hplainly rfl r hr).mpr ?_⟩
  rintro ⟨read, hread, b, hb, -⟩
  obtain rfl := Option.some.inj (hparse.symm.trans hread)
  cases hb

/-- A boolean is equal to its word and does not contain it. -/
theorem not_found_by_containment_of_boolean :
    let owner : Owner := ⟨1, 1, "d", "o"⟩
    let request := Operation.request .readWrite
    let history := [request (.createDataspace "d"), request (.createOwner ⟨1, "d"⟩ "o"),
      request (.write owner (.store [.mk "/a" [("x", .bool true)] []]))]
    let s := Store.empty.after history
    (s.query owner "/a[@x='true']" .nodeOnly).toOption.map (List.map Node.path) = some ["/a"]
      ∧ (s.query owner "/a[contains(@x,'true')]" .nodeOnly).toOption.map (List.map Node.path)
        = some [] := by
  decide +kernel

end DataTree
