import DataTree.Keyed
import Mathlib.Data.List.Nodup
import Mathlib.Data.String.Basic

/-!
# Maps as sorted lists

A keyed list in increasing order of its keys is determined by what it holds
at each key, so equal maps are equal lists.  Insertion keeps the order.

## Main definitions

* `Keyed.Sorted` — the keys increase.
* `Keyed.lastAt` — the last value that a list of pairs gives a key.

## Main results

* `find?_ofList` — of two pairs with one key the later stays.
* `Sorted.ext` — sorted lists with the same values at all keys are equal.
* `ofList_congr` — pairs with different keys make one map in every order.
-/

namespace DataTree.Keyed

variable {α : Type}

/-- Whether the keys of a list of pairs increase. -/
def Sorted (m : Keyed α) : Prop := m.Pairwise fun a b => a.1 < b.1

/-- The last value that a list of pairs gives a key. -/
def lastAt (key : String) (entries : List (String × α)) : Option α :=
  (entries.reverse.find? fun e => e.1 = key).map (·.2)

theorem lastAt_cons (key : String) (e : String × α) (rest : List (String × α)) :
    lastAt key (e :: rest) = (lastAt key rest).or (if e.1 = key then some e.2 else none) := by
  rw [lastAt, List.reverse_cons, List.find?_append, lastAt]
  cases rest.reverse.find? fun e => e.1 = key with
  | some found => rfl
  | none =>
      by_cases hkey : e.1 = key
      · simp [hkey]
      · simp [hkey]

theorem lastAt_append (key : String) (front back : List (String × α)) :
    lastAt key (front ++ back) = (lastAt key back).or (lastAt key front) := by
  rw [lastAt, List.reverse_append, List.find?_append, lastAt, lastAt]
  cases back.reverse.find? fun e => e.1 = key with
  | some found => rfl
  | none => rfl

theorem mem_of_lastAt {key : String} {value : α} {entries : List (String × α)}
    (h : lastAt key entries = some value) : (key, value) ∈ entries := by
  obtain ⟨⟨k, v⟩, hfind, rfl⟩ := Option.map_eq_some_iff.mp h
  have hkey : k = key := by simpa using List.find?_some hfind
  rw [← hkey]
  exact List.mem_reverse.mp (List.mem_of_find?_eq_some hfind)

theorem exists_lastAt {key : String} {value : α} {entries : List (String × α)}
    (h : (key, value) ∈ entries) : ∃ last, lastAt key entries = some last := by
  cases hlast : lastAt key entries with
  | some last => exact ⟨last, rfl⟩
  | none =>
      rw [lastAt, Option.map_eq_none_iff, List.find?_eq_none] at hlast
      exact absurd (decide_eq_true rfl) (hlast _ (List.mem_reverse.mpr h))

theorem find?_insert (key other : String) (value : α) (m : Keyed α) :
    find? key (insert other value m) = if other = key then some value else find? key m := by
  by_cases hkey : other = key
  · rw [if_pos hkey, hkey, find?_insert_self]
  · rw [if_neg hkey, find?_insert_ne (Ne.symm hkey)]

theorem find?_eq_none_iff {key : String} {m : Keyed α} :
    find? key m = none ↔ ∀ e ∈ m, e.1 ≠ key := by
  induction m with
  | nil => simp [find?]
  | cons e rest ih =>
      rw [find?, List.forall_mem_cons, ← ih]
      by_cases hkey : key = e.1
      · simp [hkey]
      · simp [hkey, Ne.symm hkey]

theorem mem_of_find? {key : String} {value : α} {m : Keyed α} (h : find? key m = some value) :
    (key, value) ∈ m := by
  induction m with
  | nil => cases h
  | cons e rest ih =>
      rw [find?] at h
      by_cases hkey : key = e.1
      · rw [if_pos hkey] at h
        cases h
        rw [hkey]
        exact List.mem_cons_self
      · rw [if_neg hkey] at h
        exact List.mem_cons_of_mem e (ih h)

theorem find?_insertAll (key : String) (base : Keyed α) (updates : List (String × α)) :
    find? key (insertAll base updates) = (lastAt key updates).or (find? key base) := by
  induction updates generalizing base with
  | nil => rfl
  | cons e rest ih =>
      have hstep : insertAll base (e :: rest) = insertAll (insert e.1 e.2 base) rest := rfl
      rw [hstep, ih, lastAt_cons, Option.or_assoc, find?_insert]
      by_cases hkey : e.1 = key
      · rw [if_pos hkey, if_pos hkey, Option.some_or]
      · rw [if_neg hkey, if_neg hkey, Option.none_or]

/-- Of two pairs with one key the later stays. -/
theorem find?_ofList (key : String) (entries : List (String × α)) :
    find? key (ofList entries) = lastAt key entries := by
  rw [ofList, find?_insertAll, find?, Option.or_none]

theorem ofList_eq_nil_iff {entries : List (String × α)} : ofList entries = [] ↔ entries = [] := by
  constructor
  · intro hnil
    cases entries with
    | nil => rfl
    | cons e rest =>
        obtain ⟨last, hlast⟩ := exists_lastAt (List.mem_cons_self (a := e) (l := rest))
        rw [← find?_ofList, hnil] at hlast
        cases hlast
  · rintro rfl
    rfl

/-! ## Order -/

theorem mem_insert {key : String} {value : α} {m : Keyed α} {e : String × α}
    (h : e ∈ insert key value m) : e = (key, value) ∨ e ∈ m := by
  induction m with
  | nil => exact .inl (List.mem_singleton.mp h)
  | cons first rest ih =>
      obtain ⟨k, v⟩ := first
      rw [insert] at h
      split at h
      · exact List.mem_cons.mp h
      · split at h
        · rcases List.mem_cons.mp h with h | h
          · exact .inl h
          · exact .inr (List.mem_cons_of_mem _ h)
        · rcases List.mem_cons.mp h with rfl | h
          · exact .inr List.mem_cons_self
          · rcases ih h with h | h
            · exact .inl h
            · exact .inr (List.mem_cons_of_mem _ h)

theorem mem_insertAll {base : Keyed α} {updates : List (String × α)} {e : String × α}
    (h : e ∈ insertAll base updates) : e ∈ base ∨ e ∈ updates := by
  induction updates generalizing base with
  | nil => exact .inl h
  | cons first rest ih =>
      rcases ih h with h | h
      · rcases mem_insert h with rfl | h
        · exact .inr List.mem_cons_self
        · exact .inl h
      · exact .inr (List.mem_cons_of_mem first h)

theorem sorted_insert {m : Keyed α} (h : Sorted m) (key : String) (value : α) :
    Sorted (insert key value m) := by
  induction m with
  | nil => exact List.pairwise_singleton _ _
  | cons first rest ih =>
      obtain ⟨k, v⟩ := first
      obtain ⟨hfirst, hrest⟩ := List.pairwise_cons.mp h
      rw [insert]
      split
      · rename_i hlt
        refine List.pairwise_cons.mpr ⟨fun e he => ?_, h⟩
        rcases List.mem_cons.mp he with rfl | he
        · exact hlt
        · exact lt_trans hlt (hfirst e he)
      · rename_i hnotlt
        split
        · rename_i heq
          refine List.pairwise_cons.mpr ⟨fun e he => ?_, hrest⟩
          rw [heq]
          exact hfirst e he
        · rename_i hne
          refine List.pairwise_cons.mpr ⟨fun e he => ?_, ih hrest⟩
          rcases mem_insert he with rfl | he
          · exact lt_of_le_of_ne (le_of_not_gt hnotlt) (Ne.symm hne)
          · exact hfirst e he

theorem sorted_insertAll {base : Keyed α} (h : Sorted base) (updates : List (String × α)) :
    Sorted (insertAll base updates) := by
  induction updates generalizing base with
  | nil => exact h
  | cons e rest ih => exact ih (sorted_insert h e.1 e.2)

theorem sorted_ofList (entries : List (String × α)) : Sorted (ofList entries) :=
  sorted_insertAll .nil entries

/-- A sorted list holds a value at a key exactly if the pair is in it. -/
theorem Sorted.find?_eq_some_iff {m : Keyed α} (h : Sorted m) {key : String} {value : α} :
    find? key m = some value ↔ (key, value) ∈ m := by
  induction m with
  | nil => simp [find?]
  | cons first rest ih =>
      obtain ⟨k, v⟩ := first
      obtain ⟨hfirst, hrest⟩ := List.pairwise_cons.mp h
      rw [find?, List.mem_cons]
      by_cases hkey : key = k
      · subst hkey
        rw [if_pos rfl]
        constructor
        · intro heq
          exact .inl (by rw [Option.some.inj heq])
        · rintro (heq | hmem)
          · rw [(Prod.mk.inj heq).2]
          · exact absurd (hfirst _ hmem) (lt_irrefl key)
      · rw [if_neg hkey, ih hrest]
        constructor
        · exact .inr
        · rintro (heq | hmem)
          · exact absurd (Prod.mk.inj heq).1 hkey
          · exact hmem

theorem Sorted.nodup_keys {m : Keyed α} (h : Sorted m) : (m.map (·.1)).Nodup :=
  List.pairwise_map.mpr (h.imp fun hlt => ne_of_lt hlt)

/-- Sorted lists with the same values at all keys are equal. -/
theorem Sorted.ext {a b : Keyed α} (ha : Sorted a) (hb : Sorted b)
    (h : ∀ key, find? key a = find? key b) : a = b := by
  have hmem : ∀ e, e ∈ a ↔ e ∈ b := by
    rintro ⟨key, value⟩
    rw [← ha.find?_eq_some_iff, ← hb.find?_eq_some_iff, h]
  have hperm : a.Perm b :=
    (List.perm_ext_iff_of_nodup (List.Nodup.of_map _ ha.nodup_keys)
      (List.Nodup.of_map _ hb.nodup_keys)).mpr hmem
  refine hperm.eq_of_pairwise (fun x y _ _ hxy hyx => ?_) ha hb
  exact absurd (lt_trans hxy hyx) (lt_irrefl x.1)

theorem find?_eq_lastAt {m : Keyed α} (h : (m.map (·.1)).Nodup) (key : String) :
    find? key m = lastAt key m := by
  induction m with
  | nil => rfl
  | cons first rest ih =>
      obtain ⟨k, v⟩ := first
      obtain ⟨hnew, hrest⟩ := List.nodup_cons.mp h
      rw [find?, lastAt_cons, ← ih hrest]
      by_cases hkey : key = k
      · subst hkey
        have hnone : find? key rest = none := by
          rw [ih hrest, lastAt, Option.map_eq_none_iff, List.find?_eq_none]
          intro e he hek
          rw [List.mem_reverse] at he
          exact hnew (List.mem_map.mpr ⟨e, he, by simpa using hek⟩)
        simp [hnone]
      · simp [hkey, Ne.symm hkey]

/-- A sorted list is the map of its pairs. -/
theorem ofList_of_sorted {m : Keyed α} (h : Sorted m) : ofList m = m :=
  (sorted_ofList m).ext h fun key => by rw [find?_ofList, find?_eq_lastAt h.nodup_keys]

/-- Where no two pairs have one key, the last value of a key is its only one. -/
theorem lastAt_eq_some_iff {entries : List (String × α)} (h : (entries.map (·.1)).Nodup)
    {key : String} {value : α} : lastAt key entries = some value ↔ (key, value) ∈ entries := by
  refine ⟨mem_of_lastAt, fun hmem => ?_⟩
  obtain ⟨last, hlast⟩ := exists_lastAt hmem
  have heq := List.inj_on_of_nodup_map h (mem_of_lastAt hlast) hmem rfl
  rw [hlast, (Prod.mk.inj heq).2]

/-- Without repeated keys the order of the pairs does not matter. -/
theorem ofList_congr {a b : List (String × α)} (ha : (a.map (·.1)).Nodup)
    (hb : (b.map (·.1)).Nodup) (h : ∀ e, e ∈ a ↔ e ∈ b) : ofList a = ofList b := by
  refine (sorted_ofList a).ext (sorted_ofList b) fun key => Option.ext fun value => ?_
  rw [find?_ofList, find?_ofList, lastAt_eq_some_iff ha, lastAt_eq_some_iff hb, h]

theorem ofList_eq_of_perm {a b : List (String × α)} (h : a.Perm b) (ha : (a.map (·.1)).Nodup) :
    ofList a = ofList b :=
  ofList_congr ha ((h.map _).nodup_iff.mp ha) fun _ => h.mem_iff

theorem ofList_cons {e : String × α} {rest : List (String × α)}
    (h : ((e :: rest).map (·.1)).Nodup) : ofList (e :: rest) = insert e.1 e.2 (ofList rest) := by
  have hnew := (List.nodup_cons.mp h).1
  apply (sorted_ofList (e :: rest)).ext (sorted_insert (sorted_ofList rest) e.1 e.2)
  intro key
  rw [find?_ofList, lastAt_cons, find?_insert, find?_ofList]
  by_cases hkey : e.1 = key
  · have hnone : lastAt key rest = none := by
      apply Option.eq_none_iff_forall_ne_some.mpr
      intro value hlast
      exact hnew (List.mem_map.mpr ⟨_, mem_of_lastAt hlast, hkey.symm⟩)
    rw [hnone, if_pos hkey, Option.none_or]
  · rw [if_neg hkey, if_neg hkey, Option.or_none]

/-- Without repeated keys all pairs are kept. -/
theorem ofList_perm {entries : List (String × α)} (h : (entries.map (·.1)).Nodup) :
    (ofList entries).Perm entries := by
  have hsorted := sorted_ofList entries
  refine (List.perm_ext_iff_of_nodup (List.Nodup.of_map _ hsorted.nodup_keys)
    (List.Nodup.of_map _ h)).mpr ?_
  rintro ⟨key, value⟩
  rw [← hsorted.find?_eq_some_iff, find?_ofList, lastAt_eq_some_iff h]

/-! ## Values -/

/-- Changing values one by one commutes with insertion. -/
theorem insert_map {β : Type} (f : α → β) (key : String) (value : α) (m : Keyed α) :
    insert key (f value) (m.map fun e => (e.1, f e.2))
      = (insert key value m).map fun e => (e.1, f e.2) := by
  induction m with
  | nil => rfl
  | cons first rest ih =>
      obtain ⟨k, v⟩ := first
      simp only [List.map_cons, insert, ih]
      split
      · rfl
      · split <;> rfl

theorem insertAll_map {β : Type} (f : α → β) (base : Keyed α) (updates : List (String × α)) :
    insertAll (base.map fun e => (e.1, f e.2)) (updates.map fun e => (e.1, f e.2))
      = (insertAll base updates).map fun e => (e.1, f e.2) := by
  induction updates generalizing base with
  | nil => rfl
  | cons first rest ih =>
      show insertAll (insert first.1 (f first.2) _) _
        = (insertAll (insert first.1 first.2 _) _).map _
      rw [insert_map, ih]

end DataTree.Keyed
