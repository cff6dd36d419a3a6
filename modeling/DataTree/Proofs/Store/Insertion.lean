import DataTree.Store.Edit

/-!
# What the insertion of a draft does

A draft becomes one row for each of its nodes, in preorder and under
consecutive ids.  It is inserted row by row, so it is refused at the first of
its paths that is taken, by a row or by an earlier path of its own.

## Main definitions

* `Draft.paths`, `Draft.rows` — the paths of a draft and the rows it becomes.
* `firstTaken` — the path at which an insertion is refused.
* `Store.grow` — a store with further rows.

## Main results

* `insertDraft_of_free`, `insertDraft_of_taken` — an insertion appends the
  rows of the draft, or meets the first taken path.
-/

namespace DataTree

namespace Draft

mutual
/-- The paths of a draft in preorder. -/
def paths : Draft → List String
  | mk path _ children => path :: pathsOfAll children

def pathsOfAll : List Draft → List String
  | [] => []
  | d :: rest => paths d ++ pathsOfAll rest
end

mutual
/-- The rows that a draft becomes, under the ids from `next` on. -/
def rows (owner : Nat) (parent : Option Nat) (next : Nat) : Draft → List Row
  | mk path attributes children =>
    ⟨next, owner, path, parent, attributes⟩ :: rowsOfAll owner (some next) (next + 1) children

def rowsOfAll (owner : Nat) (parent : Option Nat) (next : Nat) : List Draft → List Row
  | [] => []
  | d :: rest => rows owner parent next d ++ rowsOfAll owner parent (next + size d) rest
end

theorem mem_pathsOfAll {path : String} {ds : List Draft} :
    path ∈ pathsOfAll ds ↔ ∃ d ∈ ds, path ∈ d.paths := by
  induction ds with
  | nil => simp [pathsOfAll]
  | cons d rest ih => simp [pathsOfAll, ih]

mutual
theorem length_rows (owner : Nat) (parent : Option Nat) (next : Nat) :
    (d : Draft) → (d.rows owner parent next).length = d.size
  | mk path attributes children => by
    rw [rows, size, List.length_cons, length_rowsOfAll owner (some next) (next + 1) children,
      Nat.add_comm]

theorem length_rowsOfAll (owner : Nat) (parent : Option Nat) (next : Nat) :
    (ds : List Draft) → (rowsOfAll owner parent next ds).length = sizeOfAll ds
  | [] => rfl
  | d :: rest => by
    rw [rowsOfAll, sizeOfAll, List.length_append, length_rows owner parent next d,
      length_rowsOfAll owner parent _ rest]
end

mutual
theorem map_path_rows (owner : Nat) (parent : Option Nat) (next : Nat) :
    (d : Draft) → (d.rows owner parent next).map Row.path = d.paths
  | mk path attributes children => by
    rw [rows, paths, List.map_cons, map_path_rowsOfAll owner (some next) (next + 1) children]

theorem map_path_rowsOfAll (owner : Nat) (parent : Option Nat) (next : Nat) :
    (ds : List Draft) → (rowsOfAll owner parent next ds).map Row.path = pathsOfAll ds
  | [] => rfl
  | d :: rest => by
    rw [rowsOfAll, pathsOfAll, List.map_append, map_path_rows owner parent next d,
      map_path_rowsOfAll owner parent _ rest]
end

mutual
theorem owner_of_mem_rows {owner : Nat} {parent : Option Nat} {next : Nat} {r : Row} :
    (d : Draft) → r ∈ d.rows owner parent next → r.owner = owner
  | mk path attributes children => by
    intro h
    rw [rows] at h
    rcases List.mem_cons.mp h with rfl | h
    · rfl
    · exact owner_of_mem_rowsOfAll children h

theorem owner_of_mem_rowsOfAll {owner : Nat} {parent : Option Nat} {next : Nat} {r : Row} :
    (ds : List Draft) → r ∈ rowsOfAll owner parent next ds → r.owner = owner
  | [] => by
    intro h
    cases h
  | d :: rest => by
    intro h
    rw [rowsOfAll] at h
    rcases List.mem_append.mp h with h | h
    · exact owner_of_mem_rows d h
    · exact owner_of_mem_rowsOfAll rest h
end

end Draft

/-! ## The first path that is taken -/

/-- The first of some paths that is taken, each path taking itself. -/
def firstTaken (taken : List String) : List String → Option String
  | [] => none
  | path :: rest => if path ∈ taken then some path else firstTaken (taken ++ [path]) rest

theorem firstTaken_append (taken front back : List String) :
    firstTaken taken (front ++ back)
      = (firstTaken taken front).or (firstTaken (taken ++ front) back) := by
  induction front generalizing taken with
  | nil => simp [firstTaken]
  | cons path front ih =>
      rw [List.cons_append, firstTaken, firstTaken]
      by_cases htaken : path ∈ taken
      · rw [if_pos htaken, if_pos htaken, Option.some_or]
      · rw [if_neg htaken, if_neg htaken, ih, List.append_assoc, List.singleton_append]

/-- No path is taken exactly if they are new and differ from each other. -/
theorem firstTaken_eq_none_iff {taken paths : List String} :
    firstTaken taken paths = none ↔ paths.Nodup ∧ ∀ path ∈ paths, path ∉ taken := by
  induction paths generalizing taken with
  | nil => simp [firstTaken]
  | cons path rest ih =>
      rw [firstTaken]
      by_cases htaken : path ∈ taken
      · rw [if_pos htaken]
        simp [htaken]
      · rw [if_neg htaken, ih, List.nodup_cons]
        constructor
        · rintro ⟨hnodup, hfree⟩
          refine ⟨⟨fun hmem => hfree path hmem (by simp), hnodup⟩, fun q hq => ?_⟩
          rcases List.mem_cons.mp hq with rfl | hq
          · exact htaken
          · exact fun hmem => hfree q hq (List.mem_append_left _ hmem)
        · rintro ⟨⟨hnew, hnodup⟩, hfree⟩
          refine ⟨hnodup, fun q hq hmem => ?_⟩
          rcases List.mem_append.mp hmem with hmem | hmem
          · exact hfree q (List.mem_cons_of_mem _ hq) hmem
          · rw [List.mem_singleton.mp hmem] at hq
            exact hnew hq

namespace Store

/-- The paths that an owner has stored. -/
def pathsOf (s : Store) (owner : Nat) : List String :=
  (s.rows.filter fun r => r.owner = owner).map Row.path

/-- The store with further rows under the next ids. -/
def grow (s : Store) (new : List Row) : Store :=
  { s with rows := s.rows ++ new, lastRow := s.lastRow + new.length }

theorem mem_pathsOf {s : Store} {owner : Nat} {path : String} :
    path ∈ s.pathsOf owner ↔ ∃ r ∈ s.rows, r.owner = owner ∧ r.path = path := by
  simp [pathsOf, and_assoc]

theorem isSome_rowAt?_iff {s : Store} {owner : Nat} {path : String} :
    (s.rowAt? owner path).isSome = true ↔ path ∈ s.pathsOf owner := by
  rw [mem_pathsOf, rowAt?, List.find?_isSome]
  simp

@[simp] theorem grow_nil (s : Store) : s.grow [] = s := by
  simp [grow]

theorem grow_append (s : Store) (front back : List Row) :
    s.grow (front ++ back) = (s.grow front).grow back := by
  simp [grow, Nat.add_assoc]

@[simp] theorem hasOwner_grow (s : Store) (new : List Row) (owner : Nat) :
    (s.grow new).hasOwner owner = s.hasOwner owner := rfl

theorem hasRow_iff {s : Store} {id : Nat} : s.hasRow id = true ↔ ∃ r ∈ s.rows, r.id = id := by
  simp [hasRow]

theorem hasRow_grow {s : Store} {id : Nat} (h : s.hasRow id = true) (new : List Row) :
    (s.grow new).hasRow id = true := by
  obtain ⟨r, hr, hid⟩ := hasRow_iff.mp h
  exact hasRow_iff.mpr ⟨r, List.mem_append_left new hr, hid⟩

theorem all_hasRow_grow {s : Store} {parent : Option Nat} (h : parent.all s.hasRow = true)
    (new : List Row) : parent.all (s.grow new).hasRow = true := by
  cases parent with
  | none => rfl
  | some id => exact hasRow_grow h new

/-- The new rows of one owner take their paths. -/
theorem pathsOf_grow {s : Store} {owner : Nat} {new : List Row}
    (h : ∀ r ∈ new, r.owner = owner) :
    (s.grow new).pathsOf owner = s.pathsOf owner ++ new.map Row.path := by
  have hnew : new.filter (fun r => r.owner = owner) = new :=
    List.filter_eq_self.mpr fun r hr => by simpa using h r hr
  simp [pathsOf, grow, hnew]

end Store

/-! ## Inserting -/

section Insertion

variable {s : Store} {owner : Nat} {parent : Option Nat}

theorem insertRow_of_taken {path : String} (h : path ∈ s.pathsOf owner) (attributes : String) :
    s.insertRow owner path parent attributes = .error .duplicate := by
  rw [Store.insertRow, if_pos (Store.isSome_rowAt?_iff.mpr h)]

theorem insertRow_of_free {path : String} (howner : s.hasOwner owner = true)
    (hparent : parent.all s.hasRow = true) (h : path ∉ s.pathsOf owner) (attributes : String) :
    s.insertRow owner path parent attributes
      = .ok (s.grow [⟨s.lastRow + 1, owner, path, parent, attributes⟩], s.lastRow + 1) := by
  rw [Store.insertRow, if_neg (fun hsome => h (Store.isSome_rowAt?_iff.mp hsome)),
    if_pos (by rw [howner, hparent]; rfl)]
  rfl

theorem insertRow_of_missing {path : String}
    (hmissing : ¬(s.hasOwner owner = true ∧ parent.all s.hasRow = true))
    (h : path ∉ s.pathsOf owner) (attributes : String) :
    s.insertRow owner path parent attributes = .error (.engine .foreignKey) := by
  rw [Store.insertRow, if_neg (fun hsome => h (Store.isSome_rowAt?_iff.mp hsome)),
    if_neg (by rw [Bool.and_eq_true]; exact hmissing)]

/-- The row of a draft is there once it is inserted. -/
private theorem all_hasRow_inserted (s : Store) (r : Row) :
    (some r.id).all (s.grow [r]).hasRow = true :=
  Store.hasRow_iff.mpr ⟨r, by simp [Store.grow], rfl⟩

private theorem pathsOf_inserted (s : Store) (r : Row) (h : r.owner = owner) :
    (s.grow [r]).pathsOf owner = s.pathsOf owner ++ [r.path] :=
  Store.pathsOf_grow fun q hq => by rw [List.mem_singleton.mp hq, h]

mutual
/-- A draft whose paths are free is appended to the rows. -/
theorem insertDraft_of_free : (d : Draft) → (s : Store) → (parent : Option Nat) →
    s.hasOwner owner = true → parent.all s.hasRow = true →
    firstTaken (s.pathsOf owner) d.paths = none →
      insertDraft owner parent d s
        = (s.grow (d.rows owner parent (s.lastRow + 1)), .ok d.size)
  | .mk path attributes children, s, parent => by
    intro howner hparent hfree
    rw [Draft.paths, firstTaken] at hfree
    by_cases htaken : path ∈ s.pathsOf owner
    · rw [if_pos htaken] at hfree
      cases hfree
    · rw [if_neg htaken] at hfree
      let row : Row := ⟨s.lastRow + 1, owner, path, parent, attributes⟩
      have hchildren := insertDrafts_of_free children (s.grow [row]) (some row.id) howner
        (all_hasRow_inserted s row) (by rw [pathsOf_inserted s row rfl]; exact hfree)
      rw [insertDraft, insertRow_of_free howner hparent htaken]
      simp only
      rw [show (some (s.lastRow + 1)) = some row.id from rfl, hchildren, ← Store.grow_append,
        Draft.rows, Draft.size, Nat.add_comm 1]
      rfl

theorem insertDrafts_of_free : (ds : List Draft) → (s : Store) → (parent : Option Nat) →
    s.hasOwner owner = true → parent.all s.hasRow = true →
    firstTaken (s.pathsOf owner) (Draft.pathsOfAll ds) = none →
      insertDrafts owner parent ds s
        = (s.grow (Draft.rowsOfAll owner parent (s.lastRow + 1) ds), .ok (Draft.sizeOfAll ds))
  | [], s, parent => by
    intro _ _ _
    rw [insertDrafts, Draft.rowsOfAll, Store.grow_nil, Draft.sizeOfAll]
  | d :: rest, s, parent => by
    intro howner hparent hfree
    rw [Draft.pathsOfAll, firstTaken_append, Option.or_eq_none_iff] at hfree
    let new := d.rows owner parent (s.lastRow + 1)
    have hpaths : (s.grow new).pathsOf owner = s.pathsOf owner ++ d.paths := by
      rw [Store.pathsOf_grow fun r hr => Draft.owner_of_mem_rows d hr, Draft.map_path_rows]
    have hlast : (s.grow new).lastRow + 1 = s.lastRow + 1 + d.size := by
      show s.lastRow + new.length + 1 = _
      rw [Draft.length_rows]
      omega
    have hrest := insertDrafts_of_free rest (s.grow new) parent howner
      (Store.all_hasRow_grow hparent new) (by rw [hpaths]; exact hfree.2)
    rw [insertDrafts, insertDraft_of_free d s parent howner hparent hfree.1]
    simp only
    rw [hrest, hlast, ← Store.grow_append, Draft.rowsOfAll, Draft.sizeOfAll]
end

mutual
/-- Otherwise the first taken path is what the insertion meets. -/
theorem insertDraft_of_taken {taken : String} :
    (d : Draft) → (s : Store) → (parent : Option Nat) →
    s.hasOwner owner = true → parent.all s.hasRow = true →
    firstTaken (s.pathsOf owner) d.paths = some taken →
      (insertDraft owner parent d s).2 = .error (.conflict taken .duplicate)
  | .mk path attributes children, s, parent => by
    intro howner hparent hfirst
    rw [Draft.paths, firstTaken] at hfirst
    by_cases htaken : path ∈ s.pathsOf owner
    · rw [if_pos htaken] at hfirst
      cases hfirst
      rw [insertDraft, insertRow_of_taken htaken]
    · rw [if_neg htaken] at hfirst
      let row : Row := ⟨s.lastRow + 1, owner, path, parent, attributes⟩
      have hchildren := insertDrafts_of_taken children (s.grow [row]) (some row.id) howner
        (all_hasRow_inserted s row) (by rw [pathsOf_inserted s row rfl]; exact hfirst)
      rw [insertDraft, insertRow_of_free howner hparent htaken]
      simp only
      rw [show (some (s.lastRow + 1)) = some row.id from rfl]
      generalize insertDrafts owner (some row.id) children (s.grow [row]) = result at hchildren ⊢
      obtain ⟨s', outcome⟩ := result
      cases hchildren
      rfl

theorem insertDrafts_of_taken {taken : String} :
    (ds : List Draft) → (s : Store) → (parent : Option Nat) →
    s.hasOwner owner = true → parent.all s.hasRow = true →
    firstTaken (s.pathsOf owner) (Draft.pathsOfAll ds) = some taken →
      (insertDrafts owner parent ds s).2 = .error (.conflict taken .duplicate)
  | [], s, parent => by
    intro _ _ hfirst
    cases hfirst
  | d :: rest, s, parent => by
    intro howner hparent hfirst
    rw [Draft.pathsOfAll, firstTaken_append] at hfirst
    rw [insertDrafts]
    cases hd : firstTaken (s.pathsOf owner) d.paths with
    | some path =>
        rw [hd] at hfirst
        cases hfirst
        have hhead := insertDraft_of_taken d s parent howner hparent hd
        generalize insertDraft owner parent d s = result at hhead ⊢
        obtain ⟨s', outcome⟩ := result
        cases hhead
        rfl
    | none =>
        rw [hd, Option.none_or] at hfirst
        let new := d.rows owner parent (s.lastRow + 1)
        have hrest := insertDrafts_of_taken rest (s.grow new) parent howner
          (Store.all_hasRow_grow hparent new)
          (by rw [Store.pathsOf_grow fun r hr => Draft.owner_of_mem_rows d hr,
                Draft.map_path_rows]; exact hfirst)
        rw [insertDraft_of_free d s parent howner hparent hd]
        simp only
        generalize insertDrafts owner parent rest (s.grow new) = result at hrest ⊢
        obtain ⟨s', outcome⟩ := result
        cases hrest
        rfl
end

/-- A draft is refused by the engine only if its owner or parent is missing
and its own path, which is looked up before them, is free. -/
theorem insertDraft_of_missing {d : Draft}
    (hmissing : ¬(s.hasOwner owner = true ∧ parent.all s.hasRow = true))
    (h : d.path ∉ s.pathsOf owner) :
    insertDraft owner parent d s = (s, .error (.engine .foreignKey)) := by
  obtain ⟨path, attributes, children⟩ := d
  change path ∉ s.pathsOf owner at h
  rw [insertDraft, insertRow_of_missing hmissing h]

theorem insertDraft_of_root_taken {d : Draft} (h : d.path ∈ s.pathsOf owner) :
    insertDraft owner parent d s = (s, .error (.conflict d.path .duplicate)) := by
  obtain ⟨path, attributes, children⟩ := d
  change path ∈ s.pathsOf owner at h
  rw [insertDraft, insertRow_of_taken h]
  rfl

end Insertion

end DataTree
