import DataTree.Proofs.Json.Normal
import DataTree.Proofs.Store.LeafConditions

/-!
# Leaves asked for by their text

A query for a text finds the rows where the leaf, or some item of it, is a string with that
text.  If the text spells an integer, in whatever form, a number of that value is found too,
be it an integer or a double: the text of a double is read as the double that was stored.
But so is a boolean, for one if it is true and for zero if it is false, which the text is
not that of.  Nothing else is found.

## Main definitions

* `Number.Equals` — whether a number has the value of an integer.
* `Json.items` — the values that a leaf is searched for.
* `Json.IsText` — whether a value is a string, or a number that the text spells.
* `Json.IsDigit` — whether a value is a boolean whose digit the text spells.
* `Row.HasText` — whether a query for a text admits a row.
* `Write.Normal` — whether the doubles that a write is given are normal.

## Main results

* `isText_seen_iff` — which values have a text.
* `hasText_iff` — which rows do.
* `found_by_text` — the rows of a query for a text.
-/

namespace DataTree

open DataTree.Path

/-! ## Numbers -/

/-- The number that a double denotes. -/
def Double.value (d : Double) : ℚ := if d.negative then -d.magnitude.value else d.magnitude.value

/-- Whether a number has the value of an integer. -/
def Number.Equals : Number → Int → Prop
  | .integer m, n => m = n
  | .double d, n => d.value = n

theorem Double.compareInt_eq_iff {d : Double} {n : Int} : d.compareInt n = .eq ↔ d.value = n := by
  have hden : (0 : ℚ) < d.magnitude.toRatio.2 := by exact_mod_cast d.magnitude.toRatio_pos
  have hvalue : d.value = d.numerator / d.magnitude.toRatio.2 := by
    rw [Double.value, Double.numerator, ← Magnitude.toRatio_div]
    split
    · push_cast
      ring
    · push_cast
      rfl
  rw [Double.compareInt, compare_eq_iff_eq, hvalue, div_eq_iff hden.ne']
  exact_mod_cast Iff.rfl

namespace Json

/-- A number is seen as one that compares as equal with a word if it has its value. -/
theorem compareInt_seen_number {x : Number} (hheld : x.Held) (hnormal : x.Normal) {n : Int}
    (hn : Decimal.IsInt64 n) : x.numeral.nearest.compareInt n = .eq ↔ x.Equals n := by
  cases x with
  | integer m =>
      have hseen := compareInt_seen (v := .number (.integer m)) hheld (by simp) hn .eq
      simp only [isInteger_number_iff, exists_eq_left', seen_number, LeafValue.compareInt,
        Option.some_inj] at hseen
      rw [hseen, eq_comm, compare_eq_iff_eq, Number.Equals]
  | double d =>
      rw [Number.nearest_numeral hnormal]
      exact Double.compareInt_eq_iff

/-! ## Values -/

/-- The values that a leaf is searched for: the items of a list, or the leaf itself. -/
def items : Json → List Json
  | .array items => items
  | .object members => members.map (·.2)
  | v => [v]

/-- Whether a value is a string, or a number whose value the text spells. -/
def IsText (v : Json) (wanted : String) : Prop :=
  v = .string wanted
    ∨ ∃ n x, Decimal.toInt? wanted.toList = some n ∧ v = .number x ∧ x.Equals n

/-- Whether a value is true and the text spells one, or false and it spells zero. -/
def IsDigit (v : Json) (wanted : String) : Prop :=
  ∃ b, v = .bool b ∧ Decimal.toInt? wanted.toList = some (if b then 1 else 0)

theorem items_document (v : Json) : v.document.items = v.items.map document := by
  cases v with
  | array vs =>
      show itemDocuments vs = vs.map document
      induction vs with
      | nil => rfl
      | cons w rest ih => rw [itemDocuments, ih, List.map_cons]
  | object members =>
      show (memberDocuments members).map (·.2) = (members.map (·.2)).map document
      induction members with
      | nil => rfl
      | cons m rest ih => rw [memberDocuments, List.map_cons, ih, List.map_cons, List.map_cons]
  | _ => rfl

/-- A query takes a boolean for its digit, and nothing else for what it is not. -/
theorem isText_seen_iff {v : Json} (hheld : v.Held) (hnormal : v.Normal) (wanted : String) :
    v.seen.isText wanted = true ↔ v.IsText wanted ∨ v.IsDigit wanted := by
  cases v with
  | null => simp [LeafValue.isText, IsText, IsDigit]
  | bool b => simp [LeafValue.isText, IsText, IsDigit, Option.any_eq_true]
  | string s => simp [LeafValue.isText, IsText, IsDigit]
  | number x =>
      have hequals : ∀ n, Decimal.toInt? wanted.toList = some n →
          (x.numeral.nearest.compareInt n = .eq ↔ x.Equals n) := fun n hn =>
        compareInt_seen_number hheld (normal_number_iff.mp hnormal) (Decimal.isInt64_of_toInt? hn)
      have hdigit : ¬(Json.number x).IsDigit wanted := by simp [IsDigit]
      simp only [seen_number, LeafValue.isText, IsText, Option.any_eq_true, decide_eq_true_eq,
        hdigit, or_false, reduceCtorEq, false_or, number.injEq]
      constructor
      · rintro ⟨n, hn, hcompare⟩
        exact ⟨n, x, hn, rfl, (hequals n hn).mp hcompare⟩
      · rintro ⟨n, _, hn, rfl, hx⟩
        exact ⟨n, hn, (hequals n hn).mpr hx⟩
  | array vs => simp [LeafValue.isText, IsText, IsDigit]
  | object members => simp [LeafValue.isText, IsText, IsDigit]

example : (string "1").seen.isText "+01" = false ∧ (number (.integer 1)).seen.isText "+01" = true
    ∧ (bool true).seen.isText "+01" = true := by
  decide +kernel

theorem held_items {v : Json} (h : v.Held) : ∀ item ∈ v.items, item.Held := by
  cases v with
  | array vs => exact Leaves.itemsHeld_iff.mp h
  | object members =>
      exact List.forall_mem_map.mpr (Leaves.membersHeld_iff.mp h.2)
  | _ => exact List.forall_mem_singleton.mpr h

theorem normal_items {v : Json} (h : v.Normal) : ∀ item ∈ v.items, item.Normal := by
  cases v with
  | array vs => exact normal_array_iff.mp h
  | object members => exact List.forall_mem_map.mpr (normal_object_iff.mp h)
  | _ => exact List.forall_mem_singleton.mpr h

end Json

/-! ## Rows -/

/-- Whether a query for a text admits a row. -/
def Row.HasText (r : Row) (x wanted : String) : Prop :=
  ∃ d, storedDocument? r.attributes = some d ∧ (LeafText.mk x wanted).isText d = true

/-- A query for a text admits the rows where an item of the leaf has it. -/
theorem hasText_iff {r : Row} {stored leaves : Leaves} (hheld : stored.Held)
    (hnormal : stored.Normal) (htext : r.attributes = stored.text)
    (hparse : Leaves.parse r.attributes = some leaves) {x wanted : String} :
    r.HasText x wanted ↔ ∃ leaf, Keyed.find? x stored = some leaf
      ∧ ∃ item ∈ leaf.items, item.IsText wanted ∨ item.IsDigit wanted := by
  have hd := storedDocument?_of_held hheld htext hparse
  simp only [Row.HasText, hd, Option.some_inj, exists_eq_left', LeafText.isText,
    Json.member?_memberDocuments]
  cases hfind : Keyed.find? x stored with
  | none => simp
  | some leaf =>
      have hmem := Keyed.mem_of_find? hfind
      have hall : ∀ item ∈ leaf.items, ((LeafValue.ofDocument item.document).isText wanted = true
          ↔ item.IsText wanted ∨ item.IsDigit wanted) := fun item hitem =>
        Json.isText_seen_iff (Json.held_items (Leaves.membersHeld_iff.mp hheld.2 _ hmem) item hitem)
          (Json.normal_items (hnormal _ hmem) item hitem) wanted
      simp only [Option.map_some, Option.some_inj, exists_eq_left', Json.items_document,
        List.any_map, List.any_eq_true, Function.comp_apply]
      exact exists_congr fun item => and_congr_right (hall item)

theorem exists_selection_of_leafText {q : Query} {t : LeafText} (h : q.leafText = some t) :
    ∃ keys, q.selection = .leafText keys t := by
  obtain ⟨anchor, parents, name, selection, ancestor⟩ := q
  cases selection with
  | leafText keys wanted =>
      obtain rfl := Option.some.inj h
      exact ⟨keys, rfl⟩
  | filtered conditions contains => cases h

theorem admitsRow_of_leafText {q : Query} {t : LeafText} (h : q.leafText = some t) {r : Row}
    {d : Document} (hd : storedDocument? r.attributes = some d) :
    q.admitsRow r = true ↔ r.HasText t.leaf t.value := by
  obtain ⟨keys, hselection⟩ := exists_selection_of_leafText h
  simp [Query.admitsRow, Query.readsLeaves, Query.admits, Query.conditions, Query.contains, h,
    hselection, hd, Row.HasText]

/-- Whether the doubles in the leaves that a write is given are normal. -/
def Write.Normal (w : Write) : Prop :=
  (∀ top ∈ w.trees, ∀ n : Node, n.Within top → n.leaves.Normal)
    ∧ ∀ leaves ∈ w.merges, leaves.Normal

/-- Whatever operations have been run, as long as stored leaves are scalars and lists of
scalars, a query for the text of a leaf finds the rows that it names where the leaf, or some
item of it, is the string itself, a number whose value the text spells, or true or false
where the text spells one or zero. -/
theorem found_by_text {history : List Operation} (hplain : (Store.empty.after history).Plain)
    (hgiven : ∀ operation ∈ history, ∀ w, operation.write? = some w → w.Held ∧ w.Normal) :
    let s := Store.empty.after history
    (∀ r ∈ s.rows, ∃ stored : Leaves, (stored.Held ∧ stored.Normal) ∧ r.attributes = stored.text)
      ∧ (∀ r ∈ s.rows, ∀ stored : Leaves, stored.Held → stored.Normal →
        r.attributes = stored.text → ∀ x wanted, r.HasText x wanted
          ↔ ∃ leaf, Keyed.find? x stored = some leaf
            ∧ ∃ item ∈ leaf.items, item.IsText wanted ∨ item.IsDigit wanted)
      ∧ ∀ (path : String) (q : Query) (x wanted : String), Query.parse path = .ok q →
        q.leafText = some ⟨x, wanted⟩ → q.ancestor = none → ∀ (owner : Owner) (fetch : Fetch),
        ∃ rows, s.query owner path fetch = s.nodes fetch rows
          ∧ ∀ r, r ∈ rows ↔ r ∈ s.rows ∧ isNamed s (.owner owner.id) q r = true
            ∧ r.HasText x wanted := by
  intro s
  have hread := readable_after hplain
  refine ⟨exists_text (P := fun leaves => leaves.Held ∧ leaves.Normal) ?_ ?_,
    fun r hr stored hheld hnormal htext x wanted => ?_,
    fun path q x wanted hpath htext haxis owner fetch => ?_⟩
  · exact fun hparse h => ⟨(Leaves.held_of_parse hparse).insertAll h.1,
      (Leaves.normal_of_parse hparse).insertAll h.2⟩
  · intro operation hmem w hw
    obtain ⟨hheld, hnormal⟩ := hgiven operation hmem w hw
    exact ⟨fun top htop n hn => ⟨hheld.1 top htop n hn, hnormal.1 top htop n hn⟩,
      fun leaves hleaves => ⟨hheld.2 leaves hleaves, hnormal.2 leaves hleaves⟩⟩
  · obtain ⟨leaves, hparse, -⟩ := hplain r hr
    exact hasText_iff hheld hnormal htext hparse
  · have hconditions : q.conditionList = [] := by
      obtain ⟨keys, hselection⟩ := exists_selection_of_leafText htext
      rw [Query.conditionList, Query.conditions, hselection]
    have hfits : (⟨q, none⟩ : Selector).fits (.owner owner.id) = true :=
      fits_none_of_length (by simp [hconditions]) _
    obtain ⟨rows, hquery, -, hfound⟩ := exists_rows_of_query (sound_after history) hread hpath haxis
      (by simp [hconditions]) hfits fetch
    refine ⟨rows, hquery, fun r => ?_⟩
    have hmem : r ∈ rows ↔ r ∈ s.rowsFound owner.id q := by
      rw [← hfound]
      rfl
    rw [hmem, mem_rowsFound_iff hread hfits]
    refine and_congr_right fun hr => and_congr_right fun _ => ?_
    obtain ⟨d, hd⟩ := Option.isSome_iff_exists.mp (hread r hr)
    exact admitsRow_of_leafText htext hd

/-- A list with a string and two doubles: the string is found by its text, and a double that is
integral by a text that is not its own. -/
theorem found_by_text_of_list :
    let owner : Owner := ⟨1, 1, "d", "o"⟩
    let request := Operation.request .readWrite
    let half : Double := ⟨false, ⟨1 <<< 52, -53⟩⟩
    let twelve : Double := ⟨false, ⟨12 <<< 49, -49⟩⟩
    let leaves : Leaves :=
      [("l", .array [.string "one", .number (.double half), .number (.double twelve)])]
    let history := [request (.createDataspace "d"), request (.createOwner ⟨1, "d"⟩ "o"),
      request (.write owner (.store [.mk "/a" leaves []]))]
    let s := Store.empty.after history
    let r : Row := ⟨1, 1, "/a", none, leaves.text⟩
    s.Plain ∧ (∀ operation ∈ history, ∀ w, operation.write? = some w → w.Held ∧ w.Normal)
      ∧ r ∈ s.rows ∧ r.HasText "l" "one" ∧ r.HasText "l" "+12" ∧ ¬r.HasText "l" "0"
      ∧ ∃ rows, s.query owner "/a/l[text()='+12']" .nodeOnly = s.nodes .nodeOnly rows
        ∧ r ∈ rows := by
  intro owner request half twelve leaves history s r
  have hhalf : half.magnitude.Normal := ⟨⟨by decide, by decide, by decide⟩, by decide⟩
  have htwelve : twelve.magnitude.Normal := ⟨⟨by decide, by decide, by decide⟩, by decide⟩
  have hheld : leaves.Held :=
    ⟨List.pairwise_singleton _ _, ⟨trivial, hhalf.toInRange, htwelve.toInRange, trivial⟩, trivial⟩
  have hnormal : leaves.Normal := List.forall_mem_singleton.mpr <| Json.normal_array_iff.mpr <| by
    simp only [List.forall_mem_cons, Json.normal_number_iff]
    exact ⟨fun _ h => absurd h List.not_mem_nil, hhalf, htwelve, List.forall_mem_nil _⟩
  have htrees : (Write.store [.mk "/a" leaves []]).trees = [.mk "/a" leaves []] := rfl
  have hgiven : ∀ operation ∈ history, ∀ w, operation.write? = some w → w.Held ∧ w.Normal := by
    simpa [history, request, Operation.write?, Write.Held, Write.Normal, htrees, Write.merges,
      Node.forall_within_mk, Node.leaves] using ⟨hheld, hnormal⟩
  have hplain : s.Plain := by decide +kernel
  have hr : r ∈ s.rows := by decide +kernel
  obtain ⟨-, hrow, hquery⟩ := found_by_text hplain hgiven
  have htexts := hrow r hr leaves hheld hnormal rfl "l"
  have hone : r.HasText "l" "one" := (htexts _).mpr ⟨_, rfl, _, .head _, .inl (.inl rfl)⟩
  have hspelled : Decimal.toInt? "+12".toList = some 12 := by decide +kernel
  have hequals : (Number.double twelve).Equals 12 :=
    Double.compareInt_eq_iff.mp (by decide +kernel)
  have hsigned : r.HasText "l" "+12" := (htexts _).mpr
    ⟨_, rfl, _, .tail _ (.tail _ (.head _)), .inl (.inr ⟨12, _, hspelled, rfl, hequals⟩)⟩
  have hzero : ¬r.HasText "l" "0" := by
    have hspelled : Decimal.toInt? ['0'] = some 0 := by decide +kernel
    have hne : ¬(Number.double half).Equals 0 :=
      mt Double.compareInt_eq_iff.mpr (by decide +kernel)
    have hne' : ¬(Number.double twelve).Equals 0 :=
      mt Double.compareInt_eq_iff.mpr (by decide +kernel)
    rw [htexts]
    rintro ⟨leaf, hleaf, item, hitem, htext⟩
    cases hleaf
    simp only [Json.items, List.mem_cons, List.not_mem_nil, or_false] at hitem
    rcases hitem with rfl | rfl | rfl <;>
      simp [Json.IsText, Json.IsDigit, hspelled, hne, hne'] at htext
  let q : Query := ⟨.absolute, [], "a", .leafText [] ⟨"l", "+12"⟩, none⟩
  have hpath : (Query.parse "/a/l[text()='+12']").toOption = some q := by decide +kernel
  obtain ⟨rows, hrows, hfound⟩ := hquery _ q "l" "+12" (toOption_eq_some_iff.mp hpath) rfl rfl
    owner .nodeOnly
  exact ⟨hplain, hgiven, hr, hone, hsigned, hzero, rows, hrows,
    (hfound r).mpr ⟨hr, by decide +kernel, hsigned⟩⟩

/-- True is found by one. -/
theorem found_by_digit_of_boolean :
    let owner : Owner := ⟨1, 1, "d", "o"⟩
    let request := Operation.request .readWrite
    let history := [request (.createDataspace "d"), request (.createOwner ⟨1, "d"⟩ "o"),
      request (.write owner (.store [.mk "/a" [("x", .bool true)] []]))]
    let s := Store.empty.after history
    (s.query owner "/a/x[text()='1']" .nodeOnly).toOption.map (List.map Node.path) = some ["/a"]
      ∧ ¬(Json.bool true).IsText "1" := by
  intro owner request history s
  refine ⟨by decide +kernel, ?_⟩
  simp [Json.IsText]

end DataTree
