import DataTree.Proofs.Json.Doubles
import DataTree.Proofs.Json.Values

/-!
# Leaves read back as leaves

The text of a value denotes a value that is the same but for doubles, each of
which reads as a double, if it does not nest too deep to be read.  So leaves
that a node may have are read back as such, and others are not.

## Main definitions

* `Json.Held` — a value that programs and documents can hold.
* `Json.Alike` — the same values but for doubles.

## Main results

* `Json.exists_document_of_held` — a value is written as a document that
  denotes such a value.
* `Leaves.exists_parse_text` — leaves of a valid node read back as such.
* `Leaves.badLeaf?_of_parse_text` — and no other leaves do.
* `Leaves.Held.insertAll` — merging leaves gives leaves that can be held.
* `Json.held_of_ofDocument` — what a document denotes can be held.
* `Leaves.insertAll_eq_of_parse_text` — a merge that is written like the leaves
  before it changes nothing.
-/

namespace DataTree

open DataTree.Text

/-- Whether a number is an integer that fits 64 bits, signed or unsigned, or a
double in range. -/
def Number.Held : Number → Prop
  | .integer n => -9223372036854775808 ≤ n ∧ n ≤ 18446744073709551615
  | .double d => d.magnitude.InRange

/-- Whether two numbers are the same but for doubles. -/
def Number.Alike : Number → Number → Prop
  | .integer m, .integer n => m = n
  | .double _, .double _ => True
  | _, _ => False

namespace Json

mutual
/-- Whether a value is one that can be held: its numbers can be, and the keys
of its objects increase. -/
def Held : Json → Prop
  | .null | .bool _ | .string _ => True
  | .number n => n.Held
  | .array items => ItemsHeld items
  | .object members => Keyed.Sorted members ∧ MembersHeld members

def ItemsHeld : List Json → Prop
  | [] => True
  | v :: rest => Held v ∧ ItemsHeld rest

def MembersHeld : List (String × Json) → Prop
  | [] => True
  | (_, v) :: rest => Held v ∧ MembersHeld rest
end

/-! ## Values that differ in doubles -/

mutual
/-- Whether two values are the same but for doubles. -/
def Alike : Json → Json → Prop
  | .null, .null => True
  | .bool a, .bool b => a = b
  | .number m, .number n => m.Alike n
  | .string s, .string t => s = t
  | .array items, .array items' => ItemsAlike items items'
  | .object members, .object members' => MembersAlike members members'
  | _, _ => False

def ItemsAlike : List Json → List Json → Prop
  | [], [] => True
  | v :: rest, w :: rest' => Alike v w ∧ ItemsAlike rest rest'
  | _, _ => False

def MembersAlike : List (String × Json) → List (String × Json) → Prop
  | [], [] => True
  | (j, v) :: rest, (k, w) :: rest' => k = j ∧ Alike v w ∧ MembersAlike rest rest'
  | _, _ => False
end

mutual
/-- Equal values are the same but for doubles. -/
theorem alike_of_same : (v w : Json) → same v w = true → v.Alike w
  | .array items, w, h => by
    cases w with
    | array items' => exact alike_of_sameItems items items' h
    | _ => cases h
  | .object members, w, h => by
    cases w with
    | object members' => exact alike_of_sameMembers members members' h
    | _ => cases h
  | .number m, w, h => by
    cases w with
    | number n =>
        cases m with
        | integer i =>
            cases n with
            | integer j => exact (of_decide_eq_true h : i = j)
            | double d => cases h
        | double c =>
            cases n with
            | integer j => cases h
            | double d => trivial
    | _ => cases h
  | .null, w, h => by
    cases w with
    | null => trivial
    | _ => cases h
  | .bool a, w, h => by
    cases w with
    | bool b => exact (of_decide_eq_true h : a = b)
    | _ => cases h
  | .string s, w, h => by
    cases w with
    | string t => exact (of_decide_eq_true h : s = t)
    | _ => cases h

theorem alike_of_sameItems : (items items' : List Json) → sameItems items items' = true →
    ItemsAlike items items'
  | [], [], _ => trivial
  | v :: rest, w :: rest', h => by
    rw [sameItems, Bool.and_eq_true] at h
    exact ⟨alike_of_same v w h.1, alike_of_sameItems rest rest' h.2⟩

theorem alike_of_sameMembers : (members members' : List (String × Json)) →
    sameMembers members members' = true → MembersAlike members members'
  | [], [], _ => trivial
  | (j, v) :: rest, (k, w) :: rest', h => by
    rw [sameMembers, Bool.and_eq_true, Bool.and_eq_true, decide_eq_true_eq] at h
    exact ⟨h.1.1.symm, alike_of_same v w h.1.2, alike_of_sameMembers rest rest' h.2⟩
end

theorem Alike.isScalar_eq {v w : Json} (h : v.Alike w) : w.isScalar = v.isScalar := by
  cases v <;> cases w <;> first | rfl | exact h.elim

theorem ItemsAlike.all_isScalar_eq {items items' : List Json} (h : ItemsAlike items items') :
    items'.all isScalar = items.all isScalar := by
  induction items generalizing items' with
  | nil =>
      cases items' with
      | nil => rfl
      | cons w rest' => exact h.elim
  | cons v rest ih =>
      cases items' with
      | nil => exact h.elim
      | cons w rest' => rw [List.all_cons, List.all_cons, h.1.isScalar_eq, ih h.2]

theorem Alike.isLeafValue_eq {v w : Json} (h : v.Alike w) : w.isLeafValue = v.isLeafValue := by
  cases v <;> cases w <;> first | rfl | exact ItemsAlike.all_isScalar_eq h | exact h.elim

mutual
theorem Alike.depth_eq : (v w : Json) → v.Alike w → w.depth = v.depth
  | .array items, w, h => by
    cases w with
    | array items' => rw [depth, depth, ItemsAlike.depth_eq items items' h]
    | _ => exact h.elim
  | .object members, w, h => by
    cases w with
    | object members' => rw [depth, depth, MembersAlike.depth_eq members members' h]
    | _ => exact h.elim
  | .null, w, h => by cases w <;> first | rfl | exact h.elim
  | .bool _, w, h => by cases w <;> first | rfl | exact h.elim
  | .number _, w, h => by cases w <;> first | rfl | exact h.elim
  | .string _, w, h => by cases w <;> first | rfl | exact h.elim

theorem ItemsAlike.depth_eq : (items items' : List Json) → ItemsAlike items items' →
    itemsDepth items' = itemsDepth items
  | [], [], _ => rfl
  | v :: rest, w :: rest', h => by
    rw [itemsDepth, itemsDepth, Alike.depth_eq v w h.1, ItemsAlike.depth_eq rest rest' h.2]

theorem MembersAlike.depth_eq : (members members' : List (String × Json)) →
    MembersAlike members members' → membersDepth members' = membersDepth members
  | [], [], _ => rfl
  | (_, v) :: rest, (_, w) :: rest', h => by
    rw [membersDepth, membersDepth, Alike.depth_eq v w h.2.1,
      MembersAlike.depth_eq rest rest' h.2.2]
end

theorem MembersAlike.keys_eq {members members' : List (String × Json)}
    (h : MembersAlike members members') : members'.map (·.1) = members.map (·.1) := by
  induction members generalizing members' with
  | nil =>
      cases members' with
      | nil => rfl
      | cons m rest' => exact h.elim
  | cons m rest ih =>
      cases members' with
      | nil => exact h.elim
      | cons m' rest' => rw [List.map_cons, List.map_cons, h.1, ih h.2.2]

/-- Keys increase in both of two objects that are alike. -/
theorem MembersAlike.sorted {members members' : List (String × Json)}
    (h : MembersAlike members members') (hsorted : Keyed.Sorted members) :
    Keyed.Sorted members' := by
  have hkeys := List.pairwise_map.mpr hsorted
  rw [← h.keys_eq] at hkeys
  exact List.pairwise_map.mp hkeys

theorem MembersAlike.find? {members members' : List (String × Json)}
    (h : MembersAlike members members') (name : String) :
    Option.Rel Alike (Keyed.find? name members) (Keyed.find? name members') := by
  induction members generalizing members' with
  | nil =>
      cases members' with
      | nil => exact .none
      | cons m rest' => exact h.elim
  | cons m rest ih =>
      cases members' with
      | nil => exact h.elim
      | cons m' rest' =>
          obtain ⟨hkey, hvalue, hrest⟩ := h
          rw [Keyed.find?, Keyed.find?, hkey]
          by_cases hname : name = m.1
          · rw [if_pos hname, if_pos hname]
            exact .some hvalue
          · rw [if_neg hname, if_neg hname]
            exact ih hrest

/-- What is the same for values that are alike is so under a name. -/
theorem MembersAlike.exists_find?_iff {members members' : List (String × Json)}
    (h : MembersAlike members members') {P : Json → Prop}
    (hP : ∀ v w, v.Alike w → (P v ↔ P w)) (name : String) :
    (∃ v, Keyed.find? name members = some v ∧ P v)
      ↔ ∃ w, Keyed.find? name members' = some w ∧ P w := by
  have hrel := h.find? name
  generalize Keyed.find? name members = v at hrel ⊢
  generalize Keyed.find? name members' = w at hrel ⊢
  cases hrel with
  | none => simp
  | some halike => simp [hP _ _ halike]

/-- Values that are the same but for doubles are equal, unless both are doubles, lists or
objects. -/
theorem Alike.eq_or {v w : Json} (h : v.Alike w) :
    v = w ∨ (∃ d d', v = .number (.double d) ∧ w = .number (.double d'))
      ∨ (∃ items items', v = .array items ∧ w = .array items')
      ∨ ∃ members members', v = .object members ∧ w = .object members' := by
  cases v with
  | null => cases w <;> first | exact .inl rfl | exact h.elim
  | bool b => cases w <;> first | exact .inl (congrArg bool h) | exact h.elim
  | string s => cases w <;> first | exact .inl (congrArg string h) | exact h.elim
  | number m =>
      cases w with
      | number n =>
          cases m with
          | integer i =>
              cases n with
              | integer j => exact .inl (congrArg (number ∘ .integer) h)
              | double d => exact h.elim
          | double d =>
              cases n with
              | integer j => exact h.elim
              | double d' => exact .inr (.inl ⟨d, d', rfl, rfl⟩)
      | _ => exact h.elim
  | array items => cases w <;> first | exact .inr (.inr (.inl ⟨_, _, rfl, rfl⟩)) | exact h.elim
  | object members => cases w <;> first | exact .inr (.inr (.inr ⟨_, _, rfl, rfl⟩)) | exact h.elim

/-- What neither doubles nor lists nor objects have, alike values have alike. -/
theorem Alike.congr {P : Json → Prop} (hdouble : ∀ d, ¬P (.number (.double d)))
    (harray : ∀ items, ¬P (.array items)) (hobject : ∀ members, ¬P (.object members)) {v w : Json}
    (h : v.Alike w) : P v ↔ P w := by
  rcases h.eq_or with rfl | ⟨d, d', rfl, rfl⟩ | ⟨_, _, rfl, rfl⟩ | ⟨_, _, rfl, rfl⟩
  · rfl
  · exact iff_of_false (hdouble _) (hdouble _)
  · exact iff_of_false (harray _) (harray _)
  · exact iff_of_false (hobject _) (hobject _)

theorem Alike.eq_bool_iff {v w : Json} (h : v.Alike w) (b : Bool) : v = .bool b ↔ w = .bool b :=
  Alike.congr (P := (· = .bool b)) (by simp) (by simp) (by simp) h

theorem Alike.exists_eq_double_iff {v w : Json} (h : v.Alike w) :
    (∃ d, v = .number (.double d)) ↔ ∃ d, w = .number (.double d) := by
  rcases h.eq_or with rfl | ⟨d, d', rfl, rfl⟩ | ⟨_, _, rfl, rfl⟩ | ⟨_, _, rfl, rfl⟩ <;> simp

/-! ## Reading back -/

theorem exists_document_of_exact {v : Json} (hexact : v.Exact) (h : v.Held) (hself : v.Alike v) :
    ∃ (d : Document) (w : Json), d.ReadsBack ∧ d.chars = v.chars
      ∧ (∀ limit, v.depth ≤ limit → ofDocument limit d = some w) ∧ w.Held ∧ v.Alike w := by
  obtain ⟨d, hreads, hchars, hvalue⟩ := exists_document v hexact
  exact ⟨d, v, hreads, hchars, hvalue, h, hself⟩

mutual
/-- A value is written as a document that reads back and denotes the same value
but for doubles. -/
theorem exists_document_of_held : (v : Json) → v.Held → ∃ (d : Document) (w : Json),
    d.ReadsBack ∧ d.chars = v.chars ∧ (∀ limit, v.depth ≤ limit → ofDocument limit d = some w)
      ∧ w.Held ∧ v.Alike w
  | .null, h => exists_document_of_exact trivial h trivial
  | .bool _, h => exists_document_of_exact trivial h rfl
  | .string _, h => exists_document_of_exact trivial h rfl
  | .number (.integer _), h => exists_document_of_exact h h rfl
  | .number (.double x), h => by
    obtain ⟨n, hreads, hchars, ⟨y, hvalue, hrange⟩, -⟩ := Double.exists_numeral h
    refine ⟨.number n, .number (.double y), hreads, hchars, fun limit _ => ?_, hrange, trivial⟩
    rw [ofDocument, hvalue]
    rfl
  | .array items, h => by
    obtain ⟨ds, ws, hreads, hchars, hvalue, hheld, halike⟩ := exists_items_of_held items h
    refine ⟨.array ds, .array ws, hreads, ?_, fun limit hlimit => ?_, hheld, halike⟩
    · rw [Document.chars, hchars, chars]
    · rw [depth] at hlimit
      cases limit with
      | zero => omega
      | succ limit =>
          rw [ofDocument, hvalue limit (by omega)]
          rfl
  | .object members, h => by
    obtain ⟨hsorted, h⟩ := h
    obtain ⟨ds, ws, hreads, hchars, hvalue, hheld, halike⟩ := exists_members_of_held members h
    have hsorted' := MembersAlike.sorted halike hsorted
    refine ⟨.object ds, .object ws, hreads, ?_, fun limit hlimit => ?_, ⟨hsorted', hheld⟩, halike⟩
    · rw [Document.chars, hchars, chars]
    · rw [depth] at hlimit
      cases limit with
      | zero => omega
      | succ limit =>
          rw [ofDocument, hvalue limit (by omega), Option.map_some, Keyed.ofList_of_sorted hsorted']

theorem exists_items_of_held : (items : List Json) → ItemsHeld items →
    ∃ (ds : List Document) (ws : List Json), Document.ItemsReadBack ds
      ∧ Document.itemsChars ds = itemsChars items
      ∧ (∀ limit, itemsDepth items ≤ limit → ofItems limit ds = some ws)
      ∧ ItemsHeld ws ∧ ItemsAlike items ws
  | [], _ => ⟨[], [], trivial, rfl, fun _ _ => rfl, trivial, trivial⟩
  | v :: rest, h => by
    obtain ⟨d, w, hreads, hchars, hvalue, hheld, halike⟩ := exists_document_of_held v h.1
    obtain ⟨ds, ws, hreads', hchars', hvalue', hheld', halike'⟩ := exists_items_of_held rest h.2
    refine ⟨d :: ds, w :: ws, ⟨hreads, hreads'⟩, ?_, fun limit hlimit => ?_, ⟨hheld, hheld'⟩,
      halike, halike'⟩
    · rw [Document.itemsChars, hchars, hchars', itemsChars]
    · rw [itemsDepth] at hlimit
      rw [ofItems, hvalue limit (by omega), hvalue' limit (by omega)]

theorem exists_members_of_held : (members : List (String × Json)) → MembersHeld members →
    ∃ (ds : List (String × Document)) (ws : List (String × Json)), Document.MembersReadBack ds
      ∧ Document.membersChars ds = membersChars members
      ∧ (∀ limit, membersDepth members ≤ limit → ofMembers limit ds = some ws)
      ∧ MembersHeld ws ∧ MembersAlike members ws
  | [], _ => ⟨[], [], trivial, rfl, fun _ _ => rfl, trivial, trivial⟩
  | (key, v) :: rest, h => by
    obtain ⟨d, w, hreads, hchars, hvalue, hheld, halike⟩ := exists_document_of_held v h.1
    obtain ⟨ds, ws, hreads', hchars', hvalue', hheld', halike'⟩ := exists_members_of_held rest h.2
    refine ⟨(String.ofList (escape key.toList), d) :: ds, (key, w) :: ws,
      ⟨readSpelling_spelling key, hreads, hreads'⟩, ?_, fun limit hlimit => ?_, ⟨hheld, hheld'⟩,
      rfl, halike, halike'⟩
    · rw [Document.membersChars, hchars, hchars', membersChars, spelled_escape]
    · rw [membersDepth] at hlimit
      rw [ofMembers, decode?_escape, hvalue limit (by omega), hvalue' limit (by omega)]
end

/-- The text of a value that does not nest too deep denotes the same value but
for doubles. -/
theorem exists_parse_text {v : Json} (h : v.Held) (hdepth : v.depth ≤ maxNesting) :
    ∃ w, Json.parse v.text = some w ∧ w.Held ∧ v.Alike w := by
  obtain ⟨d, w, hreads, hchars, hvalue, hheld, halike⟩ := exists_document_of_held v h
  refine ⟨w, ?_, hheld, halike⟩
  rw [Json.parse, text, ← hchars, Document.parse_chars hreads, Option.bind_some]
  exact hvalue maxNesting hdepth

/-- The text of a value denotes nothing else, and nothing at all if it nests too
deep. -/
theorem alike_of_parse_text {v w : Json} (h : v.Held) (hparse : Json.parse v.text = some w) :
    v.Alike w ∧ v.depth ≤ maxNesting := by
  obtain ⟨d, w', hreads, hchars, hvalue, -, halike⟩ := exists_document_of_held v h
  rw [Json.parse, text, ← hchars, Document.parse_chars hreads, Option.bind_some] at hparse
  have hboth := ofDocument_mono d (Nat.le_max_left maxNesting v.depth) hparse
  rw [hvalue _ (Nat.le_max_right maxNesting v.depth)] at hboth
  cases hboth
  have hdepth := depth_le_of_ofDocument hparse
  rw [Alike.depth_eq v w halike] at hdepth
  exact ⟨halike, hdepth⟩

end Json

/-! ## Leaves -/

namespace Leaves

/-- Whether leaves are a map that can be held. -/
def Held (leaves : Leaves) : Prop := (Json.object leaves).Held

theorem membersHeld_iff {members : List (String × Json)} :
    Json.MembersHeld members ↔ ∀ m ∈ members, m.2.Held := by
  induction members with
  | nil => simp [Json.MembersHeld]
  | cons m rest ih => simp [Json.MembersHeld, ih]

theorem itemsHeld_iff {items : List Json} : Json.ItemsHeld items ↔ ∀ v ∈ items, v.Held := by
  induction items with
  | nil => simp [Json.ItemsHeld]
  | cons v rest ih => simp [Json.ItemsHeld, ih]

/-- Merging leaves gives leaves that can be held. -/
theorem Held.insertAll {base updates : Leaves} (hbase : base.Held) (h : updates.Held) :
    Leaves.Held (Keyed.insertAll base updates) := by
  refine ⟨Keyed.sorted_insertAll hbase.1 updates, membersHeld_iff.mpr fun m hm => ?_⟩
  rcases Keyed.mem_insertAll hm with hm | hm
  · exact membersHeld_iff.mp hbase.2 m hm
  · exact membersHeld_iff.mp h.2 m hm

theorem badLeaf?_eq_none_iff {leaves : Leaves} :
    Node.badLeaf? leaves = none ↔ ∀ leaf ∈ leaves, leaf.2.isLeafValue = true := by
  simp [Node.badLeaf?]

/-- Merging leaves of valid nodes gives leaves of a valid node. -/
theorem badLeaf?_insertAll {base updates : Leaves} (hbase : Node.badLeaf? base = none)
    (h : Node.badLeaf? updates = none) : Node.badLeaf? (Keyed.insertAll base updates) = none := by
  refine badLeaf?_eq_none_iff.mpr fun m hm => ?_
  rcases Keyed.mem_insertAll hm with hm | hm
  · exact badLeaf?_eq_none_iff.mp hbase m hm
  · exact badLeaf?_eq_none_iff.mp h m hm

/-- Leaves that are alike are as good as leaves of a node. -/
theorem badLeaf?_eq_of_alike {leaves read : Leaves} (h : Json.MembersAlike leaves read) :
    Node.badLeaf? read = Node.badLeaf? leaves := by
  simp only [Node.badLeaf?]
  induction leaves generalizing read with
  | nil =>
      cases read with
      | nil => rfl
      | cons m rest' => exact h.elim
  | cons m rest ih =>
      cases read with
      | nil => exact h.elim
      | cons m' rest' =>
          obtain ⟨hkey, halike, hrest⟩ := h
          simp only [List.find?_cons, halike.isLeafValue_eq]
          cases m.2.isLeafValue
          · exact congrArg some hkey
          · exact ih hrest

/-- The text of the leaves of a valid node denotes leaves of a valid node. -/
theorem exists_parse_text {leaves : Leaves} (h : leaves.Held)
    (hvalid : Node.badLeaf? leaves = none) :
    ∃ read, Leaves.parse leaves.text = some read ∧ read.Held ∧ Node.badLeaf? read = none := by
  obtain ⟨w, hparse, hheld, halike⟩ := Json.exists_parse_text h (shallow_of_badLeaf? hvalid)
  cases w with
  | object read =>
      refine ⟨read, ?_, hheld, (badLeaf?_eq_of_alike halike).trans hvalid⟩
      rw [Leaves.parse, if_neg (text_ne_empty leaves), text, hparse]
  | _ => exact halike.elim

/-- The text of leaves denotes the same leaves but for doubles, and none at all if they
nest too deep. -/
theorem alike_of_parse_text {leaves read : Leaves} (h : leaves.Held)
    (hparse : Leaves.parse leaves.text = some read) :
    Json.MembersAlike leaves read ∧ leaves.Shallow := by
  rw [Leaves.parse, if_neg (text_ne_empty leaves)] at hparse
  split at hparse
  · rename_i members hmembers
    cases hparse
    exact Json.alike_of_parse_text h hmembers
  · cases hparse

/-- The text of leaves that no node may have denotes no leaves of a node, and
none at all if they nest too deep. -/
theorem badLeaf?_of_parse_text {leaves read : Leaves} (h : leaves.Held)
    (hparse : Leaves.parse leaves.text = some read) :
    Node.badLeaf? read = Node.badLeaf? leaves ∧ leaves.Shallow := by
  obtain ⟨halike, hdepth⟩ := alike_of_parse_text h hparse
  exact ⟨badLeaf?_eq_of_alike halike, hdepth⟩

end Leaves

/-! ## What texts denote -/

/-- What a numeral denotes can be held. -/
theorem Numeral.held_of_value? {n : Numeral} {x : Number} (h : n.value? = some x) : x.Held := by
  have hdouble : n.double?.map Number.double = some x → x.Held := by
    intro h
    obtain ⟨d, hd, rfl⟩ := Option.map_eq_some_iff.mp h
    exact (Numeral.normal_of_double? hd).toInRange
  have hmin : (1 <<< 63 : ℕ) = 9223372036854775808 := rfl
  have hmax : UInt64.size - 1 = 18446744073709551615 := rfl
  unfold Numeral.value? at h
  cases hneg : n.negative with
  | true =>
      simp only [hneg, if_true, hmin, Bool.and_eq_true, decide_eq_true_eq] at h
      split at h
      · rename_i hinteger
        cases h
        exact ⟨by omega, by omega⟩
      · exact hdouble h
  | false =>
      simp only [hneg, Bool.false_eq_true, if_false, hmax, Bool.and_eq_true, decide_eq_true_eq] at h
      split at h
      · rename_i hinteger
        cases h
        exact ⟨by omega, by omega⟩
      · exact hdouble h

namespace Json

/-- What a document denotes can be held. -/
theorem held_of_ofDocument {d : Document} {limit : Nat} {v : Json}
    (h : ofDocument limit d = some v) : v.Held := by
  have hheld : OfDocuments fun _ v => v.Held :=
    { null := fun _ => trivial
      bool := fun _ _ => trivial
      number := fun _ => Numeral.held_of_value?
      string := fun _ _ => trivial
      array := Leaves.itemsHeld_iff.mpr
      object := fun hsorted hmembers => ⟨hsorted, Leaves.membersHeld_iff.mpr hmembers⟩ }
  exact hheld.document d h

theorem Exact.held {v : Json} (h : v.Exact) : v.Held := by
  obtain ⟨d, -, -, hvalue⟩ := exists_document v h
  exact held_of_ofDocument (hvalue v.depth (Nat.le_refl _))

mutual
/-- A value without doubles is alike only to itself. -/
theorem Alike.eq_of_exact : (v w : Json) → v.Exact → v.Alike w → w = v
  | .array items, w, hexact, h => by
    cases w with
    | array items' => rw [ItemsAlike.eq_of_exact items items' hexact h]
    | _ => exact h.elim
  | .object members, w, hexact, h => by
    cases w with
    | object members' => rw [MembersAlike.eq_of_exact members members' hexact.2 h]
    | _ => exact h.elim
  | .number m, w, hexact, h => by
    cases w with
    | number n =>
        cases m with
        | integer i =>
            cases n with
            | integer j => rw [show i = j from h]
            | double d => exact h.elim
        | double d => exact hexact.elim
    | _ => exact h.elim
  | .null, w, _, h => by cases w <;> first | rfl | exact h.elim
  | .bool a, w, _, h => by
    cases w with
    | bool b => rw [show a = b from h]
    | _ => exact h.elim
  | .string s, w, _, h => by
    cases w with
    | string t => rw [show s = t from h]
    | _ => exact h.elim

theorem ItemsAlike.eq_of_exact : (items items' : List Json) → ItemsExact items →
    ItemsAlike items items' → items' = items
  | [], [], _, _ => rfl
  | v :: rest, w :: rest', hexact, h => by
    rw [Alike.eq_of_exact v w hexact.1 h.1, ItemsAlike.eq_of_exact rest rest' hexact.2 h.2]

theorem MembersAlike.eq_of_exact : (members members' : List (String × Json)) →
    MembersExact members → MembersAlike members members' → members' = members
  | [], [], _, _ => rfl
  | (_, v) :: rest, (_, w) :: rest', hexact, h => by
    rw [h.1, Alike.eq_of_exact v w hexact.1 h.2.1,
      MembersAlike.eq_of_exact rest rest' hexact.2 h.2.2]
end

theorem MembersAlike.exists_of_mem {members members' : List (String × Json)}
    (h : MembersAlike members members') {key : String} {v : Json} (hmem : (key, v) ∈ members) :
    ∃ w, (key, w) ∈ members' ∧ v.Alike w := by
  induction members generalizing members' with
  | nil => cases hmem
  | cons m rest ih =>
      cases members' with
      | nil => exact h.elim
      | cons m' rest' =>
          rcases List.mem_cons.mp hmem with rfl | hmem
          · exact ⟨m'.2, by rw [← h.1]; exact List.mem_cons_self, h.2.1⟩
          · obtain ⟨w, hw, halike⟩ := ih h.2.2 hmem
            exact ⟨w, List.mem_cons_of_mem m' hw, halike⟩

end Json

namespace Leaves

/-- Leaves that a text denotes can be held. -/
theorem held_of_parse {text : String} {leaves : Leaves} (h : Leaves.parse text = some leaves) :
    leaves.Held := by
  rw [Leaves.parse] at h
  split at h
  · cases h
    exact ⟨.nil, trivial⟩
  · split at h
    · rename_i members hmembers
      cases h
      obtain ⟨d, -, hvalue⟩ := Option.bind_eq_some_iff.mp hmembers
      exact Json.held_of_ofDocument hvalue
    · cases h

/-- Leaves that are alike after leaves without doubles were merged into them are the
same as before. -/
theorem insertAll_eq_of_alike {old leaves : Leaves} (hold : old.Held) (hexact : leaves.Exact)
    (h : Json.MembersAlike (Keyed.insertAll old leaves) old) :
    Keyed.insertAll old leaves = old := by
  have hmerged : Leaves.Held (Keyed.insertAll old leaves) := hold.insertAll hexact.held
  refine hmerged.1.ext hold.1 fun key => ?_
  cases hlast : Keyed.lastAt key leaves with
  | none => rw [Keyed.find?_insertAll, hlast, Option.none_or]
  | some v =>
      have hfind : Keyed.find? key (Keyed.insertAll old leaves) = some v := by
        rw [Keyed.find?_insertAll, hlast, Option.some_or]
      obtain ⟨w, hw, hvw⟩ := h.exists_of_mem (hmerged.1.find?_eq_some_iff.mp hfind)
      have hexactv := membersExact_iff.mp hexact.2 _ (Keyed.mem_of_lastAt hlast)
      rw [Json.Alike.eq_of_exact v w hexactv hvw] at hw
      rw [hfind, hold.1.find?_eq_some_iff.mpr hw]

/-- Leaves whose text denotes what leaves without doubles were merged into are
those leaves. -/
theorem insertAll_eq_of_parse_text {old leaves : Leaves} (hold : old.Held) (hexact : leaves.Exact)
    (h : Leaves.parse (Leaves.text (Keyed.insertAll old leaves)) = some old) :
    Keyed.insertAll old leaves = old := by
  apply insertAll_eq_of_alike hold hexact
  rw [Leaves.parse, if_neg (text_ne_empty _)] at h
  split at h
  · rename_i members hmembers
    cases h
    exact (Json.alike_of_parse_text (hold.insertAll hexact.held) hmembers).1
  · cases h

/-- Merging leaves without doubles gives equal values only if it changes nothing. -/
theorem same_insertAll_iff {old leaves : Leaves} (hold : old.Held) (hexact : leaves.Exact) :
    Leaves.same (Keyed.insertAll old leaves) old = true ↔ Keyed.insertAll old leaves = old := by
  constructor
  · intro hsame
    exact insertAll_eq_of_alike hold hexact (Json.alike_of_sameMembers _ _ hsame)
  · intro heq
    rw [heq]
    exact same_self old

end Leaves

end DataTree
