import DataTree.Proofs.Json.Held

/-!
# The document of a value

The text of a value that can be held is that of one document, whoever reads it.  A node
that is read from the text has what that document denotes, so leaves come back one by
one: a value without doubles is itself, and a double is whatever its own text denotes.

## Main definitions

* `Json.document` — the document that a value is written as.
* `Json.reread` — what the text of a value denotes.

## Main results

* `Json.document_parse_text` — the text of a value is that of its document.
* `Leaves.find?_of_parse_text` — what the text of leaves denotes under a name.
-/

namespace DataTree

open DataTree.Text

/-- The numeral that a number is written as. -/
def Number.numeral (n : Number) : Numeral :=
  ((Numeral.read (Json.numberChars n)).map (·.1)).getD (Numeral.ofInt 0)

theorem Number.numeral_eq {n : Number} {m : Numeral} (hreads : m.ReadsBack)
    (hchars : m.chars = Json.numberChars n) : n.numeral = m := by
  have hread := hreads.2 [] (notBefore_nil _)
  rw [List.append_nil, hchars] at hread
  rw [numeral, hread]
  rfl

theorem Number.numeral_integer (n : Int) : (Number.integer n).numeral = Numeral.ofInt n :=
  numeral_eq (Json.readsBack_ofInt n) (Numeral.chars_ofInt n)

/-- A number is written as a numeral that reads back. -/
theorem Number.readsBack_numeral {n : Number} (h : n.Held) :
    n.numeral.ReadsBack ∧ n.numeral.chars = Json.numberChars n := by
  cases n with
  | integer n =>
      rw [numeral_integer]
      exact ⟨Json.readsBack_ofInt n, Numeral.chars_ofInt n⟩
  | double d =>
      obtain ⟨m, hreads, hchars, -⟩ := Double.exists_numeral h
      rw [numeral_eq (n := .double d) hreads hchars]
      exact ⟨hreads, hchars⟩

/-- A double is itself where its numeral is read as the nearest double. -/
theorem Number.nearest_numeral {d : Double} (h : d.magnitude.Normal) :
    (Number.double d).numeral.nearest = .double d := by
  obtain ⟨m, hreads, hchars, -, hnearest⟩ := Double.exists_numeral h.toInRange
  rw [numeral_eq (n := .double d) hreads hchars, hnearest h]

namespace Json

/-! ## Documents -/

mutual
/-- The document that a value is written as. -/
def document : Json → Document
  | .null => .null
  | .bool b => .bool b
  | .number n => .number n.numeral
  | .string s => .string (String.ofList (escape s.toList))
  | .array items => .array (itemDocuments items)
  | .object members => .object (memberDocuments members)

def itemDocuments : List Json → List Document
  | [] => []
  | v :: rest => document v :: itemDocuments rest

def memberDocuments : List (String × Json) → List (String × Document)
  | [] => []
  | (key, v) :: rest => (String.ofList (escape key.toList), document v) :: memberDocuments rest
end

mutual
theorem readsBack_document : (v : Json) → v.Held → v.document.ReadsBack
  | .null, _ | .bool _, _ => trivial
  | .number _, h => (Number.readsBack_numeral h).1
  | .string s, _ => readSpelling_spelling s
  | .array items, h => readsBack_itemDocuments items h
  | .object members, h => readsBack_memberDocuments members h.2

theorem readsBack_itemDocuments : (items : List Json) → ItemsHeld items →
    Document.ItemsReadBack (itemDocuments items)
  | [], _ => trivial
  | v :: rest, h => ⟨readsBack_document v h.1, readsBack_itemDocuments rest h.2⟩

theorem readsBack_memberDocuments : (members : List (String × Json)) → MembersHeld members →
    Document.MembersReadBack (memberDocuments members)
  | [], _ => trivial
  | (key, v) :: rest, h =>
    ⟨readSpelling_spelling key, readsBack_document v h.1, readsBack_memberDocuments rest h.2⟩
end

mutual
theorem chars_document : (v : Json) → v.Held → v.document.chars = v.chars
  | .null, _ | .bool true, _ | .bool false, _ => rfl
  | .number _, h => (Number.readsBack_numeral h).2
  | .string s, _ => spelled_escape s
  | .array items, h => by
    rw [document, Document.chars, itemsChars_itemDocuments items h, chars]
  | .object members, h => by
    rw [document, Document.chars, membersChars_memberDocuments members h.2, chars]

theorem itemsChars_itemDocuments : (items : List Json) → ItemsHeld items →
    Document.itemsChars (itemDocuments items) = itemsChars items
  | [], _ => rfl
  | v :: rest, h => by
    rw [itemDocuments, Document.itemsChars, chars_document v h.1,
      itemsChars_itemDocuments rest h.2, itemsChars]

theorem membersChars_memberDocuments : (members : List (String × Json)) → MembersHeld members →
    Document.membersChars (memberDocuments members) = membersChars members
  | [], _ => rfl
  | (key, v) :: rest, h => by
    rw [memberDocuments, Document.membersChars, spelled_escape, chars_document v h.1,
      membersChars_memberDocuments rest h.2, membersChars]
end

/-- The text of a value is that of its document. -/
theorem document_parse_text {v : Json} (h : v.Held) :
    Document.parse v.text = some v.document := by
  rw [text, ← chars_document v h]
  exact Document.parse_chars (readsBack_document v h)

/-! ## Reading back -/

/-- What the text of a value denotes. -/
def reread (v : Json) : Option Json := Json.parse v.text

theorem reread_eq {v : Json} (h : v.Held) : v.reread = ofDocument maxNesting v.document := by
  rw [reread, Json.parse, document_parse_text h, Option.bind_some]

/-- A value without doubles comes back. -/
theorem reread_of_exact {v : Json} (h : v.Exact) (hvalue : v.isLeafValue = true) :
    v.reread = some v :=
  parse_text h ((Leaves.depth_of_isLeafValue hvalue).trans (by decide))

/-- What members denote has their keys, and under each name what the value of that
name denotes. -/
theorem find?_of_ofMembers {members read : List (String × Json)} (hheld : MembersHeld members)
    (h : ofMembers 126 (memberDocuments members) = some read) :
    read.map (·.1) = members.map (·.1)
      ∧ ∀ name, Keyed.find? name read = (Keyed.find? name members).bind reread := by
  induction members generalizing read with
  | nil =>
      cases h
      exact ⟨rfl, fun _ => rfl⟩
  | cons m rest ih =>
      obtain ⟨key, v⟩ := m
      rw [memberDocuments, ofMembers] at h
      split at h
      · rename_i k w ws hkey hw hws
        cases h
        obtain rfl : key = k := Option.some.inj ((decode?_escape key).symm.trans hkey)
        have hv : v.reread = some w := by
          rw [reread_eq hheld.1]
          exact ofDocument_mono v.document (by decide) hw
        obtain ⟨hkeys, hfind⟩ := ih hheld.2 hws
        refine ⟨by rw [List.map_cons, List.map_cons, hkeys], fun name => ?_⟩
        rw [Keyed.find?, Keyed.find?, hfind]
        by_cases hname : name = key
        · rw [if_pos hname, if_pos hname, Option.bind_some, hv]
        · rw [if_neg hname, if_neg hname]
      · cases h

end Json

namespace Leaves

theorem document_parse_text {stored : Leaves} (h : stored.Held) :
    Document.parse stored.text = some (.object (Json.memberDocuments stored)) :=
  Json.document_parse_text h

/-- What the text of leaves denotes under a name is what the leaf of that name is read
back as. -/
theorem find?_of_parse_text {stored read : Leaves} (h : stored.Held)
    (hparse : Leaves.parse stored.text = some read) (name : String) :
    Keyed.find? name read = (Keyed.find? name stored).bind Json.reread := by
  rw [Leaves.parse, if_neg (text_ne_empty stored), Json.parse, document_parse_text h,
    Option.bind_some, Json.maxNesting, Json.ofDocument] at hparse
  split at hparse
  · rename_i members hmembers
    cases hparse
    obtain ⟨vs, hvs, hread⟩ := Option.map_eq_some_iff.mp hmembers
    obtain ⟨hkeys, hfind⟩ := Json.find?_of_ofMembers h.2 hvs
    have hsorted : Keyed.Sorted vs := by
      have hstored := List.pairwise_map.mpr h.1
      rw [← hkeys] at hstored
      exact List.pairwise_map.mp hstored
    rw [← Json.object.inj hread, Keyed.ofList_of_sorted hsorted, hfind]
  · cases hparse

end Leaves

end DataTree
