import DataTree.Proofs.Json.Seen
import DataTree.Proofs.Store.Addresses
import DataTree.Proofs.Store.Conditions
import DataTree.Proofs.Store.Lossless
import DataTree.Proofs.Store.Pages
import DataTree.Proofs.Store.Texts

/-!
# Nodes found by their own paths

The path of a row is read again when it is asked for.  A lookup compares it as
a text.  A query takes it apart: the address has to match the path of the row
up to one key predicate, its parent has to be the row one step above, and the
keys of the last step have to be values of leaves.  The row is found by its own
path in the second way too if it hangs where its path says and its leaves are
what its keys say, whatever brackets, slashes and quotes the keys hold, as long as
they are not so many that the query is refused.

## Main definitions

* `Path.Query.finalKeys` — the keys of the last step of a path.
* `Path.Literal.IsMetBy` — whether a leaf has the value that a key names.
* `Store.HangsAt` — whether a row hangs under the row at a path.

## Main results

* `matches_address_of_addressesNode` — a path matches its own address.
* `admitsRow_of_finalKeys` — a row whose leaves are what its keys say is admitted.
* `found_by_own_path` — when a row is found by its own path.
-/

namespace DataTree

open DataTree.Path

/-! ## Addresses and keys -/

namespace Path

/-- The keys of the last step of a path. -/
def Query.finalKeys (q : Query) : List Key :=
  match q.conditions.bind ConditionGroup.toKeys? with
  | none => []
  | some g => g.first :: g.rest

theorem Query.addressesNode_iff {q : Query} :
    q.addressesNode = true ↔ q.anchor = .absolute ∧ q.ancestor = none ∧ q.leafText = none
      ∧ q.contains = none
      ∧ ∀ g, q.conditions = some g → ∃ keys : KeyGroup, g = keys.toConditions := by
  have hkeys : (q.conditions.all fun g => g.toKeys?.isSome) = true
      ↔ ∀ g, q.conditions = some g → ∃ keys : KeyGroup, g = keys.toConditions := by
    rw [Option.all_eq_true]
    refine forall_congr' fun g => imp_congr_right fun _ => ?_
    constructor
    · intro h
      obtain ⟨keys, hkeys⟩ := Option.isSome_iff_exists.mp h
      exact ⟨keys, (toKeys?_eq_some hkeys).symm⟩
    · rintro ⟨keys, rfl⟩
      rw [KeyGroup.toKeys?_toConditions]
      rfl
  simp only [Query.addressesNode, Query.isAbsolute, Bool.and_eq_true, decide_eq_true_eq,
    Option.isNone_iff_eq_none, hkeys, and_assoc]

section

variable {path : String} {q : Query} (hpath : Query.parse path = .ok q)

include hpath

/-- The path of a node matches its own address: what is left of it is one key
predicate, whatever the keys hold. -/
theorem matches_address_of_addressesNode (hnode : q.addressesNode = true) :
    pathMatches q.normalized q.address false = true := by
  obtain ⟨-, haxis, htext, hcontains, -⟩ := Query.addressesNode_iff.mp hnode
  have hchars : q.normalized.toList = q.address.toList ++ q.conditions.elim [] (·.bracketed) := by
    rw [Query.normalized, Query.address, String.toList_ofList, String.toList_ofList, Query.chars,
      suffixChars_eq, haxis, htext, hcontains]
    simp
  refine matchesAddress_iff.mpr ?_
  cases hg : q.conditions with
  | none =>
      rw [hchars, hg]
      exact .inl (List.append_nil _)
  | some g =>
      obtain ⟨w, hw⟩ := exists_predicateAs hg hpath
      rw [hchars, hg]
      exact .inr ⟨_, isKeyPredicate_bracketed hw, rfl⟩

/-- Integers among the conditions of a query are words. -/
theorem isInt64_of_conditions {g : ConditionGroup} (hg : q.conditions = some g) {c : Condition}
    (hc : c ∈ g.first :: g.rest.map Prod.snd) {n : Int} (hn : c.value = .integer n) :
    Decimal.IsInt64 n := by
  obtain ⟨w, hw⟩ := exists_predicateAs hg hpath
  obtain ⟨_, _, _, _, -, -, -, hvalue, -⟩ := conditionAs_of_predicateAs hw c hc
  rw [hn] at hvalue
  obtain ⟨_, _, _, -, -, -, -, hword, -⟩ := hvalue
  exact hword

end

end Path

/-! ## Keys and leaves -/

/-- Whether a leaf has the value that a key names: a quoted value stands for a
string, a boolean or an integer with that text, an integer for itself and for
the string that spells it. -/
def Path.Literal.IsMetBy : Literal → Json → Prop
  | .text s, .string t => t = s
  | .text s, .bool b => s = if b then "true" else "false"
  | .text s, .number (.integer n) => Decimal.IsInt64 n ∧ s = String.ofList (Decimal.ofInt n)
  | .integer n, .number (.integer m) => m = n
  | .integer n, .string t => t = String.ofList (Decimal.ofInt n)
  | _, _ => False

/-- A word is the integer that its plain decimal spells. -/
theorem plainInteger?_ofInt {n : Int} (h : Decimal.IsInt64 n) :
    plainInteger? (String.ofList (Decimal.ofInt n)) = some n := by
  rw [plainInteger?, String.toList_ofList, Decimal.toInt?_ofInt h]
  simp [Option.filter]

example : ["-12", "+12", "012"].map plainInteger? = [some (-12), none, none] := by
  decide +kernel

theorem Path.Literal.isMetBy_iff_of_alike {l : Literal} {v w : Json} (h : v.Alike w) :
    l.IsMetBy v ↔ l.IsMetBy w :=
  Json.Alike.congr (P := l.IsMetBy) (by cases l <;> simp [IsMetBy])
    (by cases l <;> simp [IsMetBy]) (by cases l <;> simp [IsMetBy]) h

/-- A key that a leaf meets is a condition that holds. -/
theorem Path.Key.holds_of_isMetBy {d : Document} {k : Key} {v : Json}
    (hmember : d.member? k.leaf = some v.document)
    (hword : ∀ n, k.value = .integer n → Decimal.IsInt64 n) (h : k.value.IsMetBy v) :
    k.toCondition.holds d = true := by
  obtain ⟨leaf, value⟩ := k
  have hseen : (d.member? leaf).map LeafValue.ofDocument = some v.seen := by
    rw [hmember]
    rfl
  rw [Key.toCondition, Condition.holds]
  simp only [hseen]
  cases value with
  | text s =>
      cases v with
      | string t =>
          obtain rfl : t = s := h
          simp [LeafValue.quotable]
      | bool b =>
          obtain rfl : s = if b then "true" else "false" := h
          simp [LeafValue.quotable]
      | number m =>
          cases m with
          | integer n =>
              obtain ⟨hn, hs⟩ := h
              simp [Json.seen_integer hn, LeafValue.quotable, Numeral.Stored.text, hs]
          | double x => exact h.elim
      | _ => exact h.elim
  | integer n =>
      have hn := hword n rfl
      cases v with
      | string t =>
          obtain rfl : t = String.ofList (Decimal.ofInt n) := h
          simp [LeafValue.compareInt, plainInteger?_ofInt hn, Comparison.admits]
      | number m =>
          cases m with
          | integer m =>
              obtain rfl : m = n := h
              simp [Json.seen_integer hn, LeafValue.compareInt, Numeral.Stored.compareInt,
                Comparison.admits]
          | double x => exact h.elim
      | _ => exact h.elim

/-- Keys that leaves have are conditions that hold. -/
theorem holds_of_keys {d : Document} {keys : KeyGroup}
    (h : ∀ k ∈ keys.first :: keys.rest, k.toCondition.holds d = true) :
    keys.toConditions.holds d = true := by
  obtain ⟨first, rest⟩ := keys
  obtain ⟨hfirst, hrest⟩ := List.forall_mem_cons.mp h
  rw [ConditionGroup.holds, KeyGroup.toConditions, hfirst]
  clear h
  induction rest with
  | nil => rfl
  | cons k rest ih =>
      obtain ⟨hk, hrest⟩ := List.forall_mem_cons.mp hrest
      rw [List.map_cons, List.foldl_cons, hk]
      exact ih hfirst hrest

/-! ## Stored leaves -/

/-- What is stored is the text of leaves with a property, as long as the leaves that are
given have it and merging keeps it. -/
theorem exists_text {P : Leaves → Prop}
    (hmerge : ∀ {text : String} {old leaves : Leaves}, Leaves.parse text = some old → P leaves →
      P (Keyed.insertAll old leaves)) {history : List Operation}
    (h : ∀ operation ∈ history, ∀ w, operation.write? = some w →
      (∀ top ∈ w.trees, ∀ n : Node, n.Within top → P n.leaves) ∧ ∀ leaves ∈ w.merges, P leaves) :
    ∀ r ∈ (Store.empty.after history).rows,
      ∃ stored : Leaves, P stored ∧ r.attributes = stored.text := by
  have hfilled : (Store.empty.after history).Filled (fun _ => True)
      fun text => ∃ stored : Leaves, P stored ∧ text = stored.text := by
    refine filled_after fun operation hmem w hw => ⟨?_, ?_⟩
    · intro top htop n hn _ _ _
      exact ⟨trivial, n.leaves, (h operation hmem w hw).1 top htop n hn, rfl⟩
    · intro leaves hleaves text old _ hparse
      exact ⟨_, hmerge hparse ((h operation hmem w hw).2 leaves hleaves), rfl⟩
  exact fun r hr => (hfilled r hr).2

/-- What is stored is the text of leaves that can be held, as long as the leaves
that are given can be. -/
theorem exists_held_text {history : List Operation}
    (h : ∀ operation ∈ history, ∀ w, operation.write? = some w → w.Held) :
    ∀ r ∈ (Store.empty.after history).rows,
      ∃ stored : Leaves, stored.Held ∧ r.attributes = stored.text :=
  exists_text (fun hparse hleaves => (Leaves.held_of_parse hparse).insertAll hleaves) h

/-! ## Rows at their places -/

/-- Whether a row hangs under the row of its owner at a path, or at the top if
that is empty. -/
def Store.HangsAt (s : Store) (r : Row) (path : String) : Prop :=
  if path = "" then r.parent = none
  else ∃ p ∈ s.rows, p.owner = r.owner ∧ p.path = path ∧ r.parent = some p.id

theorem hasParentAt_of_hangsAt {s : Store} (hs : s.Sound) {r : Row} {path : String}
    (h : s.HangsAt r path) : hasParentAt s (.owner r.owner) path r = true := by
  rw [Store.HangsAt] at h
  rw [hasParentAt]
  split
  · rename_i hempty
    rw [if_pos hempty] at h
    rw [h]
    rfl
  · rename_i hne
    rw [if_neg hne] at h
    obtain ⟨p, hp, howner, hpath, hparent⟩ := h
    rw [(rowAt?_eq_some_iff hs).mpr ⟨hp, howner, hpath⟩]
    simpa using hparent

/-- A row that hangs where its path says is what the path names. -/
theorem isNamed_of_hangsAt {s : Store} (hs : s.Sound) {r : Row} (hr : r ∈ s.rows) {q : Query}
    (hpath : Query.parse r.path = .ok q) (hnode : q.addressesNode = true)
    (hhangs : s.HangsAt r q.parentAddress) : isNamed s (.owner r.owner) q r = true := by
  obtain ⟨habsolute, -, -, -, -⟩ := Query.addressesNode_iff.mp hnode
  have hcanonical : r.path = q.normalized :=
    Except.ok.inj ((hs.canonical r hr).1.symm.trans (normalize_of_parse hpath))
  have hmatches := matches_address_of_addressesNode hpath hnode
  rw [← hcanonical] at hmatches
  rw [isNamed, Query.descendantName, habsolute]
  simp [Scope.covers, hmatches, hasParentAt_of_hangsAt hs hhangs]

/-! ## Rows found by their paths -/

/-- Keys do not order, so a path with keys only is never refused. -/
theorem isTextOrder_of_addressesNode {q : Query} (hnode : q.addressesNode = true) :
    ∀ c ∈ q.conditionList, c.isTextOrder = false := by
  obtain ⟨-, -, -, -, hkeyed⟩ := Query.addressesNode_iff.mp hnode
  have hkey : ∀ k : Key, k.toCondition.isTextOrder = false := by
    rintro ⟨leaf, value⟩
    cases value <;> rfl
  intro c hc
  rw [Query.conditionList] at hc
  cases hg : q.conditions with
  | none =>
      rw [hg] at hc
      cases hc
  | some g =>
      obtain ⟨keys, rfl⟩ := hkeyed g hg
      rw [hg] at hc
      simp only [KeyGroup.toConditions, List.map_map, List.mem_cons, List.mem_map,
        Function.comp_apply] at hc
      rcases hc with rfl | ⟨k, -, rfl⟩
      · exact hkey _
      · exact hkey k

/-- A row whose leaves are what its keys say is admitted by its path. -/
theorem admitsRow_of_finalKeys {q : Query} {r : Row} (hpath : Query.parse r.path = .ok q)
    (hnode : q.addressesNode = true) {stored : Leaves} (hstored : stored.Held)
    (htext : r.attributes = stored.text)
    (hkeys : ∀ k ∈ q.finalKeys, ∃ leaves v, Leaves.parse r.attributes = some leaves
      ∧ Keyed.find? k.leaf leaves = some v ∧ k.value.IsMetBy v) :
    q.admitsRow r = true := by
  obtain ⟨-, -, hleafText, hcontains, hkeyed⟩ := Query.addressesNode_iff.mp hnode
  cases hg : q.conditions with
  | none =>
      rw [Query.admitsRow, Query.readsLeaves, hg, hleafText, hcontains]
      rfl
  | some g =>
      obtain ⟨keys, rfl⟩ := hkeyed g hg
      have hfinal : q.finalKeys = keys.first :: keys.rest := by
        rw [Query.finalKeys, hg, Option.bind_some, KeyGroup.toKeys?_toConditions]
      rw [hfinal] at hkeys
      obtain ⟨leaves, -, hparse, -⟩ := hkeys keys.first List.mem_cons_self
      have hd := Leaves.storedDocument?_text hstored (htext ▸ hparse)
      obtain ⟨hmembers, -⟩ := Leaves.alike_of_parse_text hstored (htext ▸ hparse)
      refine (admitsRow_iff hg (htext ▸ hd)).mpr ⟨holds_of_keys fun k hk => ?_, by simp [hcontains]⟩
      obtain ⟨leaves', v, hparse', hfound⟩ := hkeys k hk
      cases hparse.symm.trans hparse'
      obtain ⟨w, hw, hmet⟩ := (hmembers.exists_find?_iff
        (fun _ _ h => Literal.isMetBy_iff_of_alike h) k.leaf).mpr ⟨v, hfound⟩
      have hmember : (Document.object (Json.memberDocuments stored)).member? k.leaf
          = some w.document := by
        rw [Json.member?_memberDocuments, hw, Option.map_some]
      refine k.holds_of_isMetBy hmember (fun n hn => ?_) hmet
      refine isInt64_of_conditions hpath hg (c := k.toCondition) ?_ hn
      rw [KeyGroup.toConditions, List.map_map]
      rcases List.mem_cons.mp hk with rfl | hk
      · exact List.mem_cons_self
      · exact List.mem_cons_of_mem _ (List.mem_map.mpr ⟨k, hk, rfl⟩)

/-- Whatever operations have been run, as long as stored leaves are scalars and lists of
scalars, a lookup finds every row by its own path.  So does a query, if the path names a node
by its place, the row hangs under the row one step above, and the keys of the last step are
values of its leaves; keys may hold any brackets, slashes and quotes.  For this the leaves that
were given have to be what callers can hold: maps in the order of their keys, with numbers of
64 bits.  With so many keys that its statement nests too deep the query is refused. -/
theorem found_by_own_path {history : List Operation}
    (hplain : (Store.empty.after history).Plain) {owner : Owner} {r : Row}
    (hr : r ∈ (Store.empty.after history).rows) (howner : r.owner = owner.id) (fetch : Fetch) :
    let s := Store.empty.after history
    ∃ n, s.node fetch r = .ok n ∧ n.path = r.path
      ∧ (∃ nodes, s.get owner r.path fetch = .ok nodes ∧ n ∈ nodes)
      ∧ ∀ q, Query.parse r.path = .ok q → q.addressesNode = true →
        ((⟨q, none⟩ : Selector).fits (.owner owner.id) = false →
            s.query owner r.path fetch = .error (.engine .deepExpression))
          ∧ ((⟨q, none⟩ : Selector).fits (.owner owner.id) = true →
            (∀ operation ∈ history, ∀ w, operation.write? = some w → w.Held) →
            s.HangsAt r q.parentAddress →
            (∀ k ∈ q.finalKeys, ∃ leaves v, Leaves.parse r.attributes = some leaves
              ∧ Keyed.find? k.leaf leaves = some v ∧ k.value.IsMetBy v) →
            ∃ nodes, s.query owner r.path fetch = .ok nodes ∧ n ∈ nodes) := by
  intro s
  have hs : s.Sound := sound_after history
  obtain ⟨n, hnode⟩ := hplain.exists_node fetch hr
  refine ⟨n, hnode, path_of_node hnode, ?_, fun q hpath haddresses => ?_⟩
  · have hfound : r ∈ s.rowsAtAny owner.id [r.path] := howner ▸ mem_rowsAtAny hs hr
    obtain ⟨nodes, hnodes, -⟩ :=
      exists_nodes hplain fetch (rowsAtAny_subset owner.id [r.path])
    have hmem : n ∈ nodes := mem_of_mapM_eq_ok hnodes hfound hnode
    exact ⟨nodes, get_eq_ok_iff.mpr ⟨⟨_, (hs.canonical r hr).1⟩, hnodes,
      List.ne_nil_of_mem hmem⟩, hmem⟩
  · obtain ⟨-, haxis, -, -, -⟩ := Query.addressesNode_iff.mp haddresses
    have hquoted := isTextOrder_of_addressesNode haddresses
    refine ⟨fun hdeep => query_of_not_fits hpath (selector_of_forall haxis hquoted) hdeep fetch,
      fun hfits hheld hhangs hkeys => ?_⟩
    have hread := readable_after hplain
    have hnamed : isNamed s (.owner owner.id) q r = true :=
      howner ▸ isNamed_of_hangsAt hs hr hpath haddresses hhangs
    obtain ⟨stored, hstored, htext⟩ := exists_held_text hheld r hr
    have hadmitted := admitsRow_of_finalKeys hpath haddresses hstored htext hkeys
    obtain ⟨rows, hquery, -, hfound⟩ :=
      exists_rows_of_query hs hread hpath haxis hquoted hfits fetch
    have hall : ∀ x, x ∈ rows ↔ x ∈ s.rowsFound owner.id q := fun x => by
      rw [← hfound]
      rfl
    have hrow : r ∈ rows :=
      (hall r).mpr ((mem_rowsFound_iff hread hfits r).mpr ⟨hr, hnamed, hadmitted⟩)
    have hsub : ∀ x ∈ rows, x ∈ s.rows := fun x hx =>
      ((mem_rowsFound_iff hread hfits x).mp ((hall x).mp hx)).1
    obtain ⟨nodes, hnodes, -⟩ := exists_nodes hplain fetch hsub
    exact ⟨nodes, hquery.trans hnodes, mem_of_mapM_eq_ok hnodes hrow hnode⟩

/-- A list element with quotes, a bracket and a slash in a key, an integer key whose leaf is a
string, and a quoted key whose leaf is a boolean. -/
theorem found_by_own_path_of_odd_keys :
    let path := "/a/l[@k=\"it's [/\" and @n=5 and @t='true']"
    let element : Node :=
      .mk path [("k", .string "it's [/"), ("n", .string "5"), ("t", .bool true)] []
    let owner : Owner := ⟨1, 1, "d", "o"⟩
    let request := Operation.request .readWrite
    let history := [request (.createDataspace "d"), request (.createOwner ⟨1, "d"⟩ "o"),
      request (.write owner (.store [.mk "/a" [] [(path, element)]]))]
    let s := Store.empty.after history
    (∀ operation ∈ history, ∀ w, operation.write? = some w → w.Held) ∧ s.Plain
      ∧ ∃ n, n.path = path ∧ (∃ nodes, s.get owner path .nodeOnly = .ok nodes ∧ n ∈ nodes)
        ∧ ∃ nodes, s.query owner path .nodeOnly = .ok nodes ∧ n ∈ nodes := by
  intro path element owner request history s
  let keys : KeyGroup := ⟨⟨"k", .text "it's [/"⟩, [⟨"n", .integer 5⟩, ⟨"t", .text "true"⟩]⟩
  let q : Query := ⟨.absolute, [⟨"a", []⟩], "l", .filtered (some keys.toConditions) none, none⟩
  let r : Row := ⟨2, 1, path, some 1, Leaves.text element.leaves⟩
  have hsorted : List.Pairwise (fun a b => a.1 < b.1) element.leaves := by decide +kernel
  have hexact : element.leaves.Exact := ⟨hsorted, trivial, trivial, trivial, trivial⟩
  have hnone : Leaves.Held [] := ⟨.nil, trivial⟩
  have hleaves : element.leaves.Held := hexact.held
  have htrees : (Write.store [.mk "/a" [] [(path, element)]]).trees
      = [.mk "/a" [] [(path, element)]] := rfl
  have hheld : ∀ operation ∈ history, ∀ w, operation.write? = some w → w.Held := by
    simpa [history, request, Operation.write?, Write.Held, htrees, Write.merges, element,
      Node.forall_within_mk, Node.leaves, hnone] using hleaves
  obtain ⟨hplain, hr, hparent⟩ :
      s.Plain ∧ r ∈ s.rows ∧ (⟨1, 1, "/a", none, Leaves.text []⟩ : Row) ∈ s.rows := by
    decide +kernel
  have hpath : (Query.parse path).toOption = some q := by decide +kernel
  have hparse : Leaves.parse r.attributes = some element.leaves :=
    Leaves.parse_text_of_shallow hexact (Leaves.shallow_of_badLeaf? rfl)
  have howner : r.owner = owner.id := rfl
  obtain ⟨n, -, hn, hget, hquery⟩ := found_by_own_path hplain hr howner .nodeOnly
  have hfits : (⟨q, none⟩ : Selector).fits (.owner 1) = true := by decide +kernel
  refine ⟨hheld, hplain, n, hn, hget,
    (hquery q (toOption_eq_some_iff.mp hpath) rfl).2 hfits hheld ?_ ?_⟩
  · exact ⟨_, hparent, rfl, rfl, rfl⟩
  · have hspelled : "5" = String.ofList (Decimal.ofInt 5) := by decide +kernel
    simp only [show q.finalKeys = keys.first :: keys.rest from rfl, keys, List.forall_mem_cons]
    refine ⟨⟨_, .string "it's [/", hparse, by simp [element, Node.leaves, Keyed.find?], rfl⟩,
      ⟨_, .string "5", hparse, by simp [element, Node.leaves, Keyed.find?], hspelled⟩,
      ⟨_, .bool true, hparse, by simp [element, Node.leaves, Keyed.find?], rfl⟩, nofun⟩

/-! ## Repeated keys -/

namespace Path

theorem ConditionGroup.repeated_toCondition (k : Key) (more : Nat) :
    repeated k.toCondition more = (⟨k, List.replicate more k⟩ : KeyGroup).toConditions := by
  rw [repeated, KeyGroup.toConditions, List.map_replicate]

theorem Query.conditions_repeating (q : Query) (k : Key) (more : Nat) :
    (q.repeating k.toCondition more).conditions
      = some (⟨k, List.replicate more k⟩ : KeyGroup).toConditions :=
  congrArg some (ConditionGroup.repeated_toCondition k more)

theorem Query.finalKeys_repeating (q : Query) (k : Key) (more : Nat) :
    (q.repeating k.toCondition more).finalKeys = List.replicate (more + 1) k := by
  rw [finalKeys, conditions_repeating, Option.bind_some, KeyGroup.toKeys?_toConditions]
  rfl

theorem Query.addressesNode_repeating {q : Query} (habsolute : q.anchor = .absolute)
    (haxis : q.ancestor = none) (k : Key) (more : Nat) :
    (q.repeating k.toCondition more).addressesNode = true := by
  refine addressesNode_iff.mpr ⟨habsolute, haxis, rfl, rfl, fun g hg => ?_⟩
  rw [conditions_repeating] at hg
  exact ⟨_, (Option.some.inj hg).symm⟩

end Path

section

variable {path : String} {q : Query} {leaves : Leaves} (hpath : Query.parse path = .ok q)
  (hexact : leaves.Exact) (hleaves : Node.badLeaf? leaves = none)

include hpath hexact hleaves

theorem plain_storingLeaves : (Store.empty.after (storingLeaves path leaves)).Plain := by
  intro r hr
  rw [rows_storingLeaves hpath hleaves] at hr
  obtain rfl := List.mem_singleton.mp hr
  exact ⟨leaves, Leaves.parse_text_of_shallow hexact (Leaves.shallow_of_badLeaf? hleaves),
    Leaves.badLeaf?_eq_none_iff.mp hleaves⟩

omit hleaves in
theorem held_storingLeaves : ∀ operation ∈ storingLeaves path leaves, ∀ w,
    operation.write? = some w → w.Held := by
  have htrees : (Write.store [.mk path leaves []]).trees = [.mk path leaves []] := by
    rw [Write.trees, Node.listed, List.flatMap_singleton]
    exact if_neg (by simp [Node.path, isRoot_of_parse hpath])
  have hheld : leaves.Held := hexact.held
  simpa [storingLeaves, Operation.write?, Write.Held, htrees, Write.merges,
    Node.forall_within_mk, Node.leaves] using hheld

end

/-- A row with a thousand keys in its path, each of them its only leaf, hangs where it should and
is refused to the query of its path. -/
theorem not_found_by_thousand_keys :
    let leaves : Leaves := [("k", .string "1")]
    let owner : Owner := ⟨1, 1, "d", "o"⟩
    let place : Query := ⟨.absolute, [], "a", .filtered none none, none⟩
    let q := place.repeating ⟨"k", .equal, .text "1"⟩ 999
    let history := storingLeaves q.normalized leaves
    let s := Store.empty.after history
    let r : Row := ⟨1, 1, q.normalized, none, leaves.text⟩
    (∀ operation ∈ history, ∀ w, operation.write? = some w → w.Held) ∧ s.Plain ∧ r ∈ s.rows
      ∧ Query.parse r.path = .ok q ∧ q.addressesNode = true ∧ s.HangsAt r q.parentAddress
      ∧ (∀ k ∈ q.finalKeys, ∃ leaves v, Leaves.parse r.attributes = some leaves
        ∧ Keyed.find? k.leaf leaves = some v ∧ k.value.IsMetBy v)
      ∧ s.query owner r.path .nodeOnly = .error (.engine .deepExpression) := by
  intro leaves owner place q history s r
  let k : Key := ⟨"k", .text "1"⟩
  have hsingle : (Query.parse "/a[@k='1']").toOption = some (place.repeating k.toCondition 0) := by
    decide +kernel
  have hpath : Query.parse q.normalized = .ok q :=
    parse_repeating (toOption_eq_some_iff.mp hsingle) 999
  have hexact : leaves.Exact := ⟨List.pairwise_singleton _ _, trivial, trivial⟩
  have hparse : Leaves.parse r.attributes = some leaves :=
    Leaves.parse_text_of_shallow hexact (Leaves.shallow_of_badLeaf? rfl)
  -- named as a whole, so that the rows are not computed from a path of such a length
  have hafter : s = Store.empty.after (storingLeaves q.normalized leaves) := rfl
  have hrows : s.rows = [r] := by
    rw [hafter]
    exact rows_storingLeaves hpath rfl
  have hdeep : (⟨q, none⟩ : Selector).fits (.owner 1) = false :=
    not_fits_of_length (Nat.le_of_eq (length_conditionList_repeating place _ 999).symm) _ _
  have hkeys : q.finalKeys = List.replicate 1000 k := Query.finalKeys_repeating place k 999
  have hparent : q.parentAddress = "" := rfl
  refine ⟨held_storingLeaves hpath hexact, plain_storingLeaves hpath hexact rfl,
    hrows ▸ List.mem_singleton_self r, hpath, Query.addressesNode_repeating rfl rfl k 999, ?_,
    fun k' hk' => ?_,
    query_of_not_fits hpath (selector_repeating (q := place) rfl rfl 999) hdeep .nodeOnly⟩
  · rw [hparent]
    rfl
  · rw [hkeys] at hk'
    obtain rfl := List.eq_of_mem_replicate hk'
    exact ⟨leaves, _, hparse, rfl, rfl⟩

end DataTree
