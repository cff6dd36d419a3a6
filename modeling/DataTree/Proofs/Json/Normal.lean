import DataTree.Proofs.Json.Held

/-!
# Normal doubles in values

The doubles that documents denote are normal pairs, and so are those that programs hold.
Merging leaves brings in no others.

## Main definitions

* `Json.numbers` — the numbers in a value.
* `Json.Normal` — whether all doubles in a value are normal.

## Main results

* `Numeral.normal_of_value?` — numerals denote normal doubles.
* `Leaves.normal_of_parse`, `Leaves.Normal.insertAll` — leaves that are read and merged.
-/

namespace DataTree

open Magnitude

/-- Whether a number is an integer or a normal double. -/
def Number.Normal : Number → Prop
  | .integer _ => True
  | .double d => d.magnitude.Normal

namespace Numeral

theorem normal_of_value? {n : Numeral} {x : Number} (h : n.value? = some x) : x.Normal := by
  cases x with
  | integer i => trivial
  | double d =>
      have hdouble : n.double?.map Number.double = some (.double d) := by
        unfold value? at h
        simp only at h
        split at h <;> split at h <;> first | exact h | cases h
      obtain ⟨d', hd', heq⟩ := Option.map_eq_some_iff.mp hdouble
      cases heq
      exact normal_of_double? hd'

end Numeral

namespace Json

/-! ## Numbers in a value -/

mutual
/-- The numbers in a value. -/
def numbers : Json → List Number
  | .null | .bool _ | .string _ => []
  | .number n => [n]
  | .array items => itemNumbers items
  | .object members => memberNumbers members

def itemNumbers : List Json → List Number
  | [] => []
  | v :: rest => numbers v ++ itemNumbers rest

def memberNumbers : List (String × Json) → List Number
  | [] => []
  | (_, v) :: rest => numbers v ++ memberNumbers rest
end

/-- Whether all doubles in a value are normal. -/
def Normal (v : Json) : Prop := ∀ x ∈ v.numbers, x.Normal

theorem mem_itemNumbers {x : Number} {items : List Json} :
    x ∈ itemNumbers items ↔ ∃ v ∈ items, x ∈ v.numbers := by
  induction items with
  | nil => simp [itemNumbers]
  | cons v rest ih => simp [itemNumbers, ih]

theorem mem_memberNumbers {x : Number} {members : List (String × Json)} :
    x ∈ memberNumbers members ↔ ∃ m ∈ members, x ∈ m.2.numbers := by
  induction members with
  | nil => simp [memberNumbers]
  | cons m rest ih => simp [memberNumbers, ih]

theorem normal_array_iff {items : List Json} :
    (Json.array items).Normal ↔ ∀ v ∈ items, v.Normal := by
  simp only [Normal, numbers, mem_itemNumbers]
  exact ⟨fun h v hv x hx => h x ⟨v, hv, hx⟩, fun h x ⟨v, hv, hx⟩ => h v hv x hx⟩

theorem normal_object_iff {members : List (String × Json)} :
    (Json.object members).Normal ↔ ∀ m ∈ members, m.2.Normal := by
  simp only [Normal, numbers, mem_memberNumbers]
  exact ⟨fun h m hm x hx => h x ⟨m, hm, hx⟩, fun h x ⟨m, hm, hx⟩ => h m hm x hx⟩

theorem normal_number_iff {x : Number} : (Json.number x).Normal ↔ x.Normal := by
  simp [Normal, numbers]

/-- What a document denotes is normal. -/
theorem normal_of_ofDocument {d : Document} {limit : Nat} {v : Json}
    (h : ofDocument limit d = some v) : v.Normal := by
  have hnormal : OfDocuments fun _ v => v.Normal :=
    { null := fun _ _ hx => absurd hx List.not_mem_nil
      bool := fun _ _ _ hx => absurd hx List.not_mem_nil
      number := fun _ _ _ hx => normal_number_iff.mpr (Numeral.normal_of_value? hx)
      string := fun _ _ _ hx => absurd hx List.not_mem_nil
      array := normal_array_iff.mpr
      object := fun _ hmembers => normal_object_iff.mpr hmembers }
  exact hnormal.document d h

end Json

namespace Leaves

/-- Whether all doubles in leaves are normal. -/
def Normal (leaves : Leaves) : Prop := ∀ leaf ∈ leaves, leaf.2.Normal

/-- What is read from a text is normal. -/
theorem normal_of_parse {text : String} {leaves : Leaves} (h : Leaves.parse text = some leaves) :
    leaves.Normal := by
  rw [Leaves.parse] at h
  split at h
  · cases h
    exact List.forall_mem_nil _
  · split at h
    · rename_i members hmembers
      cases h
      obtain ⟨d, -, hd⟩ := Option.bind_eq_some_iff.mp hmembers
      exact Json.normal_object_iff.mp (Json.normal_of_ofDocument hd)
    · cases h

theorem Normal.insertAll {base updates : Leaves} (hbase : base.Normal) (h : updates.Normal) :
    Leaves.Normal (Keyed.insertAll base updates) := fun m hm => by
  rcases Keyed.mem_insertAll hm with hm | hm
  · exact hbase m hm
  · exact h m hm

end Leaves

end DataTree
