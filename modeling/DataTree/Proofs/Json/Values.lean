import DataTree.Node.Basic
import DataTree.Proofs.Json.RoundTrip
import DataTree.Proofs.Keyed

/-!
# Values read back

A value is stored as text and read from it again.  Integers, strings, arrays
and objects come back as they were; a double may come back as another one,
and two zeros are equal as values, so what is said here of stored leaves is
said of leaves without doubles.

## Main definitions

* `Json.Exact` — a value without doubles that documents can hold.
* `Json.OfDocuments` — a property that passes from the parts of documents to the whole.
* `Leaves.Shallow` — leaves that nest no deeper than what can be read.

## Main results

* `Json.parse_text`, `Leaves.parse_text` — such a value reads back.
* `Leaves.eq_of_parse_text` — however deep it nests, it reads as nothing else.
* `Leaves.eq_of_same` — such leaves are equal as values only to themselves.
-/

namespace DataTree

open DataTree.Text

namespace Json

mutual
/-- Whether a value has no doubles and is one that documents hold: integers
fit 64 bits, signed or unsigned, and the keys of an object increase. -/
def Exact : Json → Prop
  | .null | .bool _ | .string _ => True
  | .number (.integer n) => -9223372036854775808 ≤ n ∧ n ≤ 18446744073709551615
  | .number (.double _) => False
  | .array items => ItemsExact items
  | .object members => Keyed.Sorted members ∧ MembersExact members

def ItemsExact : List Json → Prop
  | [] => True
  | v :: rest => Exact v ∧ ItemsExact rest

def MembersExact : List (String × Json) → Prop
  | [] => True
  | (_, v) :: rest => Exact v ∧ MembersExact rest
end

mutual
/-- How deep arrays and objects nest in a value. -/
def depth : Json → Nat
  | .array items => itemsDepth items + 1
  | .object members => membersDepth members + 1
  | _ => 0

def itemsDepth : List Json → Nat
  | [] => 0
  | v :: rest => max (depth v) (itemsDepth rest)

def membersDepth : List (String × Json) → Nat
  | [] => 0
  | (_, v) :: rest => max (depth v) (membersDepth rest)
end

/-! ## Reading back -/

theorem spelled_escape (s : String) :
    Document.spelled (String.ofList (escape s.toList)) = stringChars s := by
  rw [Document.spelled, String.toList_ofList, stringChars]

theorem readSpelling_spelling (s : String) (rest : List Char) :
    Document.readSpelling ((String.ofList (escape s.toList)).toList ++ '"' :: rest)
      = some ((String.ofList (escape s.toList)).toList, rest) := by
  rw [String.toList_ofList]
  exact Document.readSpelling_escape s.toList rest

theorem readsBack_ofInt (n : Int) : (Numeral.ofInt n).ReadsBack := by
  refine ⟨?_, fun rest hrest => Numeral.read_ofInt n hrest⟩
  rw [Numeral.chars_ofInt]
  cases n with
  | ofNat n =>
      rcases Decimal.digits_eq n with hzero | ⟨c, cs, hdigits, -, hdigit, -⟩
      · exact ⟨'0', by rw [Decimal.ofInt, hzero]; rfl, .inr rfl⟩
      · exact ⟨c, by rw [Decimal.ofInt, hdigits]; rfl, .inr hdigit⟩
  | negSucc n => exact ⟨'-', rfl, .inl rfl⟩

mutual
/-- A value is written as a document that reads back and denotes it. -/
theorem exists_document : (v : Json) → v.Exact → ∃ d : Document, d.ReadsBack
    ∧ d.chars = v.chars ∧ ∀ limit, v.depth ≤ limit → ofDocument limit d = some v
  | .null, _ => ⟨.null, trivial, rfl, fun _ _ => rfl⟩
  | .bool true, _ => ⟨.bool true, trivial, rfl, fun _ _ => rfl⟩
  | .bool false, _ => ⟨.bool false, trivial, rfl, fun _ _ => rfl⟩
  | .number (.integer n), h => by
    refine ⟨.number (Numeral.ofInt n), readsBack_ofInt n, Numeral.chars_ofInt n, fun _ _ => ?_⟩
    rw [ofDocument, Numeral.value?_ofInt h.1 h.2]
    rfl
  | .string s, _ => by
    refine ⟨.string (String.ofList (escape s.toList)), readSpelling_spelling s,
      spelled_escape s, fun _ _ => ?_⟩
    rw [ofDocument, decode?_escape]
    rfl
  | .array items, h => by
    obtain ⟨ds, hreads, hchars, hvalue⟩ := exists_items items h
    refine ⟨.array ds, hreads, ?_, fun limit hlimit => ?_⟩
    · rw [Document.chars, hchars, chars]
    · rw [depth] at hlimit
      cases limit with
      | zero => omega
      | succ limit =>
          rw [ofDocument, hvalue limit (by omega)]
          rfl
  | .object members, h => by
    obtain ⟨hsorted, h⟩ := h
    obtain ⟨ds, hreads, hchars, hvalue⟩ := exists_members members h
    refine ⟨.object ds, hreads, ?_, fun limit hlimit => ?_⟩
    · rw [Document.chars, hchars, chars]
    · rw [depth] at hlimit
      cases limit with
      | zero => omega
      | succ limit =>
          rw [ofDocument, hvalue limit (by omega), Option.map_some, Keyed.ofList_of_sorted hsorted]

theorem exists_items : (items : List Json) → ItemsExact items → ∃ ds : List Document,
    Document.ItemsReadBack ds ∧ Document.itemsChars ds = itemsChars items
      ∧ ∀ limit, itemsDepth items ≤ limit → ofItems limit ds = some items
  | [], _ => ⟨[], trivial, rfl, fun _ _ => rfl⟩
  | v :: rest, h => by
    obtain ⟨d, hreads, hchars, hvalue⟩ := exists_document v h.1
    obtain ⟨ds, hreads', hchars', hvalue'⟩ := exists_items rest h.2
    refine ⟨d :: ds, ⟨hreads, hreads'⟩, ?_, fun limit hlimit => ?_⟩
    · rw [Document.itemsChars, hchars, hchars', itemsChars]
    · rw [itemsDepth] at hlimit
      rw [ofItems, hvalue limit (by omega), hvalue' limit (by omega)]

theorem exists_members : (members : List (String × Json)) → MembersExact members →
    ∃ ds : List (String × Document), Document.MembersReadBack ds
      ∧ Document.membersChars ds = membersChars members
      ∧ ∀ limit, membersDepth members ≤ limit → ofMembers limit ds = some members
  | [], _ => ⟨[], trivial, rfl, fun _ _ => rfl⟩
  | (key, v) :: rest, h => by
    obtain ⟨d, hreads, hchars, hvalue⟩ := exists_document v h.1
    obtain ⟨ds, hreads', hchars', hvalue'⟩ := exists_members rest h.2
    refine ⟨(String.ofList (escape key.toList), d) :: ds,
      ⟨readSpelling_spelling key, hreads, hreads'⟩, ?_, fun limit hlimit => ?_⟩
    · rw [Document.membersChars, hchars, hchars', membersChars, spelled_escape]
    · rw [membersDepth] at hlimit
      rw [ofMembers, decode?_escape, hvalue limit (by omega), hvalue' limit (by omega)]
end

/-- A value without doubles is what its text denotes. -/
theorem parse_text {v : Json} (h : v.Exact) (hdepth : v.depth ≤ maxNesting) :
    Json.parse v.text = some v := by
  obtain ⟨d, hreads, hchars, hvalue⟩ := exists_document v h
  rw [Json.parse, text, ← hchars, Document.parse_chars hreads, Option.bind_some]
  exact hvalue maxNesting hdepth

mutual
/-- What a document denotes within a limit it denotes within a greater one. -/
theorem ofDocument_mono : (d : Document) → {limit limit' : Nat} → limit ≤ limit' → {v : Json} →
    ofDocument limit d = some v → ofDocument limit' d = some v
  | .null, _, _, _, _, h => h
  | .bool _, _, _, _, _, h => h
  | .number _, _, _, _, _, h => h
  | .string _, _, _, _, _, h => h
  | .array items, limit, limit', hle, v, h => by
    cases limit with
    | zero => cases h
    | succ limit =>
        obtain ⟨k, rfl⟩ := Nat.exists_eq_add_of_le hle
        obtain ⟨vs, hvs, rfl⟩ := Option.map_eq_some_iff.mp h
        rw [Nat.add_right_comm, ofDocument, ofItems_mono items (Nat.le_add_right limit k) hvs,
          Option.map_some]
  | .object members, limit, limit', hle, v, h => by
    cases limit with
    | zero => cases h
    | succ limit =>
        obtain ⟨k, rfl⟩ := Nat.exists_eq_add_of_le hle
        obtain ⟨vs, hvs, rfl⟩ := Option.map_eq_some_iff.mp h
        rw [Nat.add_right_comm, ofDocument, ofMembers_mono members (Nat.le_add_right limit k) hvs,
          Option.map_some]

theorem ofItems_mono : (ds : List Document) → {limit limit' : Nat} → limit ≤ limit' →
    {vs : List Json} → ofItems limit ds = some vs → ofItems limit' ds = some vs
  | [], _, _, _, _, h => h
  | d :: rest, limit, limit', hle, vs, h => by
    rw [ofItems] at h
    split at h
    · rename_i v ws hv hws
      rw [ofItems, ofDocument_mono d hle hv, ofItems_mono rest hle hws]
      exact h
    · cases h

theorem ofMembers_mono : (ds : List (String × Document)) → {limit limit' : Nat} →
    limit ≤ limit' → {vs : List (String × Json)} → ofMembers limit ds = some vs →
    ofMembers limit' ds = some vs
  | [], _, _, _, _, h => h
  | (key, d) :: rest, limit, limit', hle, vs, h => by
    rw [ofMembers] at h
    split at h
    · rename_i k v ws hk hv hws
      rw [ofMembers, hk, ofDocument_mono d hle hv, ofMembers_mono rest hle hws]
      exact h
    · cases h
end

theorem membersDepth_le_iff {members : List (String × Json)} {limit : Nat} :
    membersDepth members ≤ limit ↔ ∀ m ∈ members, m.2.depth ≤ limit := by
  induction members with
  | nil => simp [membersDepth]
  | cons m rest ih => simp [membersDepth, ih]

theorem itemsDepth_le_iff {items : List Json} {limit : Nat} :
    itemsDepth items ≤ limit ↔ ∀ v ∈ items, v.depth ≤ limit := by
  induction items with
  | nil => simp [itemsDepth]
  | cons v rest ih => simp [itemsDepth, ih]

/-- A property of values, within a limit for their depth, that all values have that documents
denote: it is shown of what a document denotes from what its parts denote. -/
structure OfDocuments (P : Nat → Json → Prop) : Prop where
  null (limit : Nat) : P limit .null
  bool (limit : Nat) (b : Bool) : P limit (.bool b)
  number (limit : Nat) {n : Numeral} {x : Number} (h : n.value? = some x) : P limit (.number x)
  string (limit : Nat) (s : String) : P limit (.string s)
  array {limit : Nat} {items : List Json} (h : ∀ v ∈ items, P limit v) :
    P (limit + 1) (.array items)
  object {limit : Nat} {members : List (String × Json)} (hsorted : Keyed.Sorted members)
    (h : ∀ m ∈ members, P limit m.2) : P (limit + 1) (.object members)

namespace OfDocuments

variable {P : Nat → Json → Prop}

mutual
theorem document (hP : OfDocuments P) : (d : Document) → {limit : Nat} → {v : Json} →
    ofDocument limit d = some v → P limit v
  | .null, limit, _, h => by
    cases h
    exact hP.null limit
  | .bool b, limit, _, h => by
    cases h
    exact hP.bool limit b
  | .number _, limit, _, h => by
    obtain ⟨x, hx, rfl⟩ := Option.map_eq_some_iff.mp h
    exact hP.number limit hx
  | .string _, limit, _, h => by
    obtain ⟨s, -, rfl⟩ := Option.map_eq_some_iff.mp h
    exact hP.string limit s
  | .array items, limit, _, h => by
    cases limit with
    | zero => cases h
    | succ limit =>
        obtain ⟨vs, hvs, rfl⟩ := Option.map_eq_some_iff.mp h
        exact hP.array (hP.items items hvs)
  | .object members, limit, _, h => by
    cases limit with
    | zero => cases h
    | succ limit =>
        obtain ⟨vs, hvs, rfl⟩ := Option.map_eq_some_iff.mp h
        refine hP.object (Keyed.sorted_ofList vs) fun m hm => ?_
        -- of the members with one key only the last is kept
        rcases Keyed.mem_insertAll hm with hm | hm
        · cases hm
        · exact hP.members members hvs m hm

theorem items (hP : OfDocuments P) : (ds : List Document) → {limit : Nat} → {vs : List Json} →
    ofItems limit ds = some vs → ∀ v ∈ vs, P limit v
  | [], _, _, h => by
    cases h
    exact List.forall_mem_nil _
  | d :: rest, limit, vs, h => by
    rw [ofItems] at h
    split at h
    · rename_i v ws hv hws
      cases h
      exact List.forall_mem_cons.mpr ⟨hP.document d hv, hP.items rest hws⟩
    · cases h

theorem members (hP : OfDocuments P) : (ds : List (String × Document)) → {limit : Nat} →
    {vs : List (String × Json)} → ofMembers limit ds = some vs → ∀ m ∈ vs, P limit m.2
  | [], _, _, h => by
    cases h
    exact List.forall_mem_nil _
  | (key, d) :: rest, limit, vs, h => by
    rw [ofMembers] at h
    split at h
    · rename_i k v ws hk hv hws
      cases h
      exact List.forall_mem_cons.mpr ⟨hP.document d hv, hP.members rest hws⟩
    · cases h
end

end OfDocuments

/-- What a document denotes within a limit nests no deeper. -/
theorem depth_le_of_ofDocument {d : Document} {limit : Nat} {v : Json}
    (h : ofDocument limit d = some v) : v.depth ≤ limit := by
  have hdepths : OfDocuments fun limit v => v.depth ≤ limit :=
    { null := Nat.zero_le
      bool := fun limit _ => Nat.zero_le limit
      number := fun limit _ _ _ => Nat.zero_le limit
      string := fun limit _ => Nat.zero_le limit
      array := fun hitems => Nat.succ_le_succ (itemsDepth_le_iff.mpr hitems)
      object := fun _ hmembers => Nat.succ_le_succ (membersDepth_le_iff.mpr hmembers) }
  exact hdepths.document d h

mutual
/-- A document that denotes something within a limit nests no deeper. -/
theorem document_depth_le : (d : Document) → {limit : Nat} → {v : Json} →
    ofDocument limit d = some v → d.depth ≤ limit
  | .null, _, _, _ | .bool _, _, _, _ | .number _, _, _, _ | .string _, _, _, _ => Nat.zero_le _
  | .array items, limit, _, h => by
    cases limit with
    | zero => cases h
    | succ limit =>
        obtain ⟨vs, hvs, -⟩ := Option.map_eq_some_iff.mp h
        exact Nat.succ_le_succ (document_itemsDepth_le items hvs)
  | .object members, limit, _, h => by
    cases limit with
    | zero => cases h
    | succ limit =>
        obtain ⟨vs, hvs, -⟩ := Option.map_eq_some_iff.mp h
        exact Nat.succ_le_succ (document_membersDepth_le members hvs)

theorem document_itemsDepth_le : (ds : List Document) → {limit : Nat} → {vs : List Json} →
    ofItems limit ds = some vs → Document.itemsDepth ds ≤ limit
  | [], _, _, _ => Nat.zero_le _
  | d :: rest, limit, vs, h => by
    rw [ofItems] at h
    split at h
    · rename_i v ws hv hws
      exact Nat.max_le.mpr ⟨document_depth_le d hv, document_itemsDepth_le rest hws⟩
    · cases h

theorem document_membersDepth_le : (ds : List (String × Document)) → {limit : Nat} →
    {vs : List (String × Json)} → ofMembers limit ds = some vs → Document.membersDepth ds ≤ limit
  | [], _, _, _ => Nat.zero_le _
  | (key, d) :: rest, limit, vs, h => by
    rw [ofMembers] at h
    split at h
    · rename_i k v ws hk hv hws
      exact Nat.max_le.mpr ⟨document_depth_le d hv, document_membersDepth_le rest hws⟩
    · cases h
end

/-- The text of a value without doubles denotes nothing else, however deep it
nests. -/
theorem eq_of_parse_text {v w : Json} (h : v.Exact) (hparse : Json.parse v.text = some w) :
    w = v := by
  obtain ⟨d, hreads, hchars, hvalue⟩ := exists_document v h
  rw [Json.parse, text, ← hchars, Document.parse_chars hreads, Option.bind_some] at hparse
  have hboth := ofDocument_mono d (Nat.le_max_left maxNesting v.depth) hparse
  rw [hvalue _ (Nat.le_max_right maxNesting v.depth)] at hboth
  exact (Option.some.inj hboth).symm

/-! ## Equality of values -/

mutual
theorem same_self : (v : Json) → same v v = true
  | .null => rfl
  | .bool b => decide_eq_true rfl
  | .number (.integer n) => decide_eq_true rfl
  | .number (.double d) => by simp [same, Number.same, Double.same]
  | .string s => decide_eq_true rfl
  | .array items => sameItems_self items
  | .object members => sameMembers_self members

theorem sameItems_self : (items : List Json) → sameItems items items = true
  | [] => rfl
  | v :: rest => by rw [sameItems, same_self v, sameItems_self rest, Bool.and_self]

theorem sameMembers_self : (members : List (String × Json)) → sameMembers members members = true
  | [] => rfl
  | (key, v) :: rest => by
    rw [sameMembers, same_self v, sameMembers_self rest]
    simp
end

mutual
/-- A value without doubles is equal only to itself. -/
theorem eq_of_same : (a b : Json) → b.Exact → same a b = true → a = b
  | a, .null, _, h => by
    cases a <;> cases h
    rfl
  | a, .bool b, _, h => by
    cases a <;> simp [same] at h
    rw [h]
  | a, .number (.integer n), _, h => by
    cases a with
    | number m =>
        cases m with
        | integer m => rw [of_decide_eq_true h]
        | double d => cases h
    | _ => cases h
  | a, .string s, _, h => by
    cases a <;> simp [same] at h
    rw [h]
  | a, .array items, hexact, h => by
    cases a with
    | array as => rw [eq_of_sameItems as items hexact h]
    | _ => cases h
  | a, .object members, hexact, h => by
    cases a with
    | object as => rw [eq_of_sameMembers as members hexact.2 h]
    | _ => cases h

theorem eq_of_sameItems : (as bs : List Json) → ItemsExact bs → sameItems as bs = true → as = bs
  | [], [], _, _ => rfl
  | a :: as, b :: bs, hexact, h => by
    rw [sameItems, Bool.and_eq_true] at h
    rw [eq_of_same a b hexact.1 h.1, eq_of_sameItems as bs hexact.2 h.2]

theorem eq_of_sameMembers : (as bs : List (String × Json)) → MembersExact bs →
    sameMembers as bs = true → as = bs
  | [], [], _, _ => rfl
  | (j, a) :: as, (k, b) :: bs, hexact, h => by
    rw [sameMembers, Bool.and_eq_true, Bool.and_eq_true, decide_eq_true_eq] at h
    rw [h.1.1, eq_of_same a b hexact.1 h.1.2, eq_of_sameMembers as bs hexact.2 h.2]
end

end Json

/-! ## Leaves -/

namespace Leaves

/-- Whether leaves have no doubles and are a map that documents can hold. -/
def Exact (leaves : Leaves) : Prop := (Json.object leaves).Exact

theorem membersExact_iff {members : List (String × Json)} :
    Json.MembersExact members ↔ ∀ m ∈ members, m.2.Exact := by
  induction members with
  | nil => simp [Json.MembersExact]
  | cons m rest ih => simp [Json.MembersExact, ih]

/-- Leaves without doubles have none after others were merged into them. -/
theorem Exact.insertAll {base updates : Leaves} (hbase : base.Exact) (h : updates.Exact) :
    Leaves.Exact (Keyed.insertAll base updates) := by
  refine ⟨Keyed.sorted_insertAll hbase.1 updates, membersExact_iff.mpr fun m hm => ?_⟩
  rcases Keyed.mem_insertAll hm with hm | hm
  · exact membersExact_iff.mp hbase.2 m hm
  · exact membersExact_iff.mp h.2 m hm

/-- Whether leaves nest no deeper than texts that can be read. -/
def Shallow (leaves : Leaves) : Prop := (Json.object leaves).depth ≤ Json.maxNesting

theorem shallow_iff {leaves : Leaves} :
    leaves.Shallow ↔ ∀ m ∈ leaves, m.2.depth < Json.maxNesting := by
  rw [Shallow, Json.depth, Json.maxNesting]
  simp only [Nat.lt_succ_iff, Nat.succ_le_succ_iff, ← Json.membersDepth_le_iff]

theorem Shallow.insertAll {base updates : Leaves} (hbase : base.Shallow) (h : updates.Shallow) :
    Leaves.Shallow (Keyed.insertAll base updates) := by
  refine shallow_iff.mpr fun m hm => ?_
  rcases Keyed.mem_insertAll hm with hm | hm
  · exact shallow_iff.mp hbase m hm
  · exact shallow_iff.mp h m hm

theorem depth_of_isScalar {v : Json} (h : v.isScalar = true) : v.depth = 0 := by
  cases v with
  | array items => cases h
  | object members => cases h
  | _ => rfl

theorem depth_of_isLeafValue {v : Json} (h : v.isLeafValue = true) : v.depth ≤ 1 := by
  cases v with
  | array items =>
      have hitems : ∀ items : List Json, items.all Json.isScalar = true →
          Json.itemsDepth items = 0 := by
        intro items
        induction items with
        | nil => exact fun _ => rfl
        | cons v rest ih =>
            intro hall
            rw [List.all_cons, Bool.and_eq_true] at hall
            rw [Json.itemsDepth, depth_of_isScalar hall.1, ih hall.2]
            rfl
      rw [Json.depth, hitems items h]
  | object members => cases h
  | _ => exact Nat.zero_le 1

theorem membersDepth_le {leaves : Leaves} (h : Node.badLeaf? leaves = none) :
    Json.membersDepth leaves ≤ 1 := by
  rw [Node.badLeaf?, Option.map_eq_none_iff, List.find?_eq_none] at h
  induction leaves with
  | nil => exact Nat.zero_le 1
  | cons leaf rest ih =>
      have hvalue : leaf.2.isLeafValue = true := by simpa using h leaf List.mem_cons_self
      have hleaf := depth_of_isLeafValue hvalue
      have hrest := ih fun e he => h e (List.mem_cons_of_mem _ he)
      rw [Json.membersDepth]
      omega

theorem shallow_of_badLeaf? {leaves : Leaves} (h : Node.badLeaf? leaves = none) :
    leaves.Shallow := by
  have hmembers := membersDepth_le h
  rw [Shallow, Json.depth, Json.maxNesting]
  omega

theorem text_ne_empty (leaves : Leaves) : leaves.text ≠ "" := by
  intro hempty
  have hchars := congrArg String.toList hempty
  rw [text, Json.text, String.toList_ofList] at hchars
  cases hchars

/-- Leaves that do not nest too deep are what their text denotes. -/
theorem parse_text_of_shallow {leaves : Leaves} (h : leaves.Exact) (hshallow : leaves.Shallow) :
    Leaves.parse leaves.text = some leaves := by
  rw [Leaves.parse, if_neg (text_ne_empty leaves), text, Json.parse_text h hshallow]

/-- Leaves of a valid node are what their text denotes. -/
theorem parse_text {leaves : Leaves} (h : leaves.Exact) (hvalid : Node.badLeaf? leaves = none) :
    Leaves.parse leaves.text = some leaves :=
  parse_text_of_shallow h (shallow_of_badLeaf? hvalid)

/-- The text of leaves denotes nothing else, however deep they nest. -/
theorem eq_of_parse_text {leaves read : Leaves} (h : leaves.Exact)
    (hparse : Leaves.parse leaves.text = some read) : read = leaves := by
  rw [Leaves.parse, if_neg (text_ne_empty leaves)] at hparse
  split at hparse
  · rename_i members hmembers
    cases hparse
    exact Json.object.inj (Json.eq_of_parse_text h hmembers)
  · cases hparse

/-- Leaves are equal as values only to themselves. -/
theorem eq_of_same {a b : Leaves} (h : b.Exact) (hsame : Leaves.same a b = true) : a = b :=
  Json.eq_of_sameMembers a b h.2 hsame

theorem same_self (a : Leaves) : Leaves.same a a = true := Json.sameMembers_self a

end Leaves

end DataTree
