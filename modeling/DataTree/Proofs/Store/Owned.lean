import DataTree.Proofs.Store.Reading
import DataTree.Store.Select

/-!
# Reads see the rows of one owner

Lookups pick the rows of an owner, but what hangs under a row is found by
ids alone, and an ancestor axis climbs by ids as well.  In a sound store a
row hangs under a row of its own owner, so neither way leads to rows of
anyone else: a read through an owner gives what it would give on a store
that holds the rows of that owner and nothing else.

## Main definitions

* `Store.rowsOf` — the rows of an owner.
* `Store.only` — a store with these rows and nothing else.
* `Path.Query.admitsRow` — whether a query admits the leaves of a row.

## Main results

* `nearest_filter` — the walk up the tree stays among rows that are closed
  under parents.
* `filterByLeaves_eq_ok_iff` — rows are picked by their leaves one by one.
* `node_of_owners`, `nearestAbove_of_owners` — rows and what is above them read
  the same among the rows of some owners.
* `getMany_only`, `get_only`, `query_only` — reads through an owner depend on
  its rows only.
-/

namespace DataTree

open DataTree.Path

namespace Store

/-- The rows of an owner. -/
def rowsOf (s : Store) (owner : Nat) : List Row := s.rows.filter fun r => r.owner = owner

/-- A store with the rows of one owner and nothing else. -/
def only (s : Store) (owner : Nat) : Store := { rows := s.rowsOf owner }

theorem mem_rowsOf {s : Store} {owner : Nat} {r : Row} :
    r ∈ s.rowsOf owner ↔ r ∈ s.rows ∧ r.owner = owner := by
  simp [rowsOf]

/-- Lookups pick rows of an owner, whatever else they ask for. -/
theorem mem_rowsOf_of_lookup {s : Store} {owner : Nat} {p : Row → Bool} {r : Row}
    (h : r ∈ s.rows.filter fun r => r.owner = owner && p r) : r ∈ s.rowsOf owner := by
  obtain ⟨hr, hfound⟩ := List.mem_filter.mp h
  rw [Bool.and_eq_true, decide_eq_true_eq] at hfound
  exact mem_rowsOf.mpr ⟨hr, hfound.1⟩

end Store

/-! ## The walk up the tree -/

/-- The walk from a row whose id is in `K` is the same among some of the
rows, if they have the rows in `K`, and `K` has their parents. -/
theorem nearest_filter {K : Nat → Prop} {keep p : Row → Bool} {rows : List Row}
    (h : ∀ r ∈ rows, K r.id → keep r = true ∧ ∀ g, r.parent = some g → K g)
    {start : Option Nat} (hstart : ∀ g, start = some g → K g) :
    nearest p start (rows.filter keep) = nearest p start rows := by
  induction rows generalizing start with
  | nil => rfl
  | cons r rest ih =>
      have hrest := fun q hq => h q (List.mem_cons_of_mem r hq)
      by_cases hr : start = some r.id
      · obtain ⟨hkeep, hparent⟩ := h r List.mem_cons_self (hstart r.id hr)
        rw [List.filter_cons_of_pos hkeep, nearest, nearest, if_pos hr, if_pos hr,
          ih hrest hparent]
      · cases hkeep : keep r with
        | false =>
            rw [List.filter_cons_of_neg (by simp [hkeep]), nearest, if_neg hr, ih hrest hstart]
        | true =>
            rw [List.filter_cons_of_pos hkeep, nearest, nearest, if_neg hr, if_neg hr,
              ih hrest hstart]

theorem mem_of_nearest {p : Row → Bool} {start : Option Nat} {rows : List Row} {r : Row}
    (h : nearest p start rows = some r) : r ∈ rows := by
  induction rows generalizing start with
  | nil => cases h
  | cons q rest ih =>
      rw [nearest] at h
      split at h
      · split at h
        · cases h
          exact List.mem_cons_self
        · exact List.mem_cons_of_mem q (ih h)
      · exact List.mem_cons_of_mem q (ih h)

/-! ## Rows by leaves -/

/-- Whether a query reads no leaves, or can read those of a row and admits
them. -/
def Path.Query.admitsRow (q : Query) (r : Row) : Bool :=
  !q.readsLeaves || (storedDocument? r.attributes).any q.admits

/-- A row that a query has to read, if it admits its leaves. -/
def Path.Query.readRow (q : Query) (r : Row) : Outcome (Option Row) :=
  match storedDocument? r.attributes with
  | none => .error (.engine .malformedText)
  | some d => .ok (if q.admits d then some r else none)

theorem filterByLeaves_of_readsLeaves {q : Query} (h : q.readsLeaves = true) (rows : List Row) :
    filterByLeaves q rows = (rows.mapM q.readRow).map (List.filterMap id) := by
  rw [filterByLeaves, h]
  rfl

theorem failsWith_filterByLeaves (q : Query) (rows : List Row) :
    FailsWith (∃ fault, · = .engine fault) (filterByLeaves q rows) := by
  rw [filterByLeaves]
  split
  · exact .ok _
  · refine .bind (.mapM (fun r => ?_) rows) fun kept => .ok _
    split
    · exact .error ⟨.malformedText, rfl⟩
    · exact .ok _

/-- Selecting rows fails in the engine only: for leaves whose text cannot be read, or for a
statement that nests too deep. -/
theorem failsWith_select (s : Store) (scope : Scope) (q : Selector) :
    FailsWith (∃ fault, · = .engine fault) (s.select scope q) := by
  rw [Store.select]
  split
  · refine .bind (failsWith_filterByLeaves _ _) fun rows => ?_
    split
    · exact .ok _
    · exact failsWith_filterByLeaves _ _
  · exact .error ⟨.deepExpression, rfl⟩

theorem readRow_of_readable {q : Query} (h : q.readsLeaves = true) {r : Row}
    (hr : (storedDocument? r.attributes).isSome = true) :
    q.readRow r = .ok (Option.guard q.admitsRow r) := by
  obtain ⟨d, hd⟩ := Option.isSome_iff_exists.mp hr
  simp [Path.Query.readRow, Path.Query.admitsRow, Option.guard, hd, h]

/-- Rows are picked by their leaves one by one, as long as all of them can be
read. -/
theorem filterByLeaves_eq_ok_iff {q : Query} {rows found : List Row} :
    filterByLeaves q rows = .ok found ↔
      (q.readsLeaves = true → ∀ r ∈ rows, (storedDocument? r.attributes).isSome = true)
        ∧ rows.filter q.admitsRow = found := by
  cases hreads : q.readsLeaves with
  | false =>
      have hall : rows.filter q.admitsRow = rows :=
        List.filter_eq_self.mpr fun r _ => by simp [Path.Query.admitsRow, hreads]
      simp [filterByLeaves, hreads, hall]
  | true =>
      have hpicked : (rows.map (Option.guard q.admitsRow)).filterMap id
          = rows.filter q.admitsRow := by
        rw [List.filterMap_map, Function.id_comp, List.filterMap_eq_filter]
      rw [filterByLeaves_of_readsLeaves hreads, map_eq_ok_iff]
      constructor
      · rintro ⟨kept, hkept, rfl⟩
        have hsome : ∀ r ∈ rows, (storedDocument? r.attributes).isSome = true := by
          intro r hr
          obtain ⟨picked, -, hpick⟩ := exists_of_mem_of_mapM hkept hr
          rw [Path.Query.readRow] at hpick
          split at hpick
          · cases hpick
          · rename_i hd
            rw [hd]
            rfl
        rw [mapM_eq_ok fun r hr => readRow_of_readable hreads (hsome r hr)] at hkept
        cases hkept
        exact ⟨fun _ => hsome, hpicked.symm⟩
      · rintro ⟨hsome, rfl⟩
        exact ⟨_, mapM_eq_ok fun r hr => readRow_of_readable hreads (hsome rfl r hr), hpicked⟩

theorem filterByLeaves_of_readable {s : Store}
    (hread : ∀ r ∈ s.rows, (storedDocument? r.attributes).isSome = true) (q : Query)
    {rows : List Row} (hrows : ∀ r ∈ rows, r ∈ s.rows) :
    filterByLeaves q rows = .ok (rows.filter q.admitsRow) :=
  filterByLeaves_eq_ok_iff.mpr ⟨fun _ r hr => hread r (hrows r hr), rfl⟩

/-- So picking some of the rows before is picking some of them after. -/
theorem filterByLeaves_filter {q : Query} {rows found : List Row}
    (h : filterByLeaves q rows = .ok found) (p : Row → Bool) :
    filterByLeaves q (rows.filter p) = .ok (found.filter p) := by
  obtain ⟨hreadable, rfl⟩ := filterByLeaves_eq_ok_iff.mp h
  refine filterByLeaves_eq_ok_iff.mpr ⟨fun hreads r hr => ?_, List.filter_comm _ _ _⟩
  exact hreadable hreads r (List.mem_filter.mp hr).1

theorem mem_of_filterByLeaves {q : Query} {rows found : List Row}
    (h : filterByLeaves q rows = .ok found) : ∀ r ∈ found, r ∈ rows := by
  obtain ⟨-, rfl⟩ := filterByLeaves_eq_ok_iff.mp h
  exact fun r hr => (List.mem_filter.mp hr).1

/-! ## The rows of some owners -/

section Owners

variable {s t : Store} {K : Nat → Bool} (hs : s.Sound)
  (hrows : t.rows = s.rows.filter fun r => K r.owner)

include hs hrows

/-- A row reads the same among the rows of some owners, if its own is one of
them. -/
theorem node_of_owners {r : Row} (hr : r ∈ s.rows) (hK : K r.owner = true) (fetch : Fetch) :
    t.node fetch r = s.node fetch r := by
  refine node_of_filter (K := fun id => ∃ x ∈ s.rows, x.id = id ∧ K x.owner = true) hrows ?_ fetch
    ⟨r, hr, rfl, hK⟩
  rintro c hc g hg ⟨x, hx, rfl, hxK⟩
  rw [(hs.of_parent hx hc hg).1] at hxK
  exact ⟨hxK, c, hc, rfl, hxK⟩

/-- The walk up from it is the same, too. -/
theorem nearest_of_owners {r : Row} (hr : r ∈ s.rows) (hK : K r.owner = true) (p : Row → Bool) :
    nearest p r.parent t.rows.reverse = nearest p r.parent s.rows.reverse := by
  have hclimb : ∀ x ∈ s.rows, K x.owner = true → ∀ g, x.parent = some g →
      ∃ q ∈ s.rows, q.id = g ∧ K q.owner = true := by
    intro x hx hxK g hg
    obtain ⟨q, hq, hid, -, howner, -⟩ := hs.linked x hx g hg
    exact ⟨q, hq, hid, howner ▸ hxK⟩
  rw [hrows, ← List.filter_reverse]
  refine nearest_filter (K := fun id => ∃ x ∈ s.rows, x.id = id ∧ K x.owner = true) ?_
    (hclimb r hr hK)
  rintro c hc ⟨x, hx, hid, hxK⟩
  obtain rfl := hs.eq_of_id hx (List.mem_reverse.mp hc) hid
  exact ⟨hxK, hclimb x hx hxK⟩

omit hrows in
/-- The walk up from a row stays with its owner. -/
theorem owner_of_nearest {r top : Row} (hr : r ∈ s.rows) {p : Row → Bool}
    (h : nearest p r.parent s.rows.reverse = some top) :
    top ∈ s.rows ∧ top.owner = r.owner := by
  rw [← nearest_of_owners (K := fun id => id = r.owner) (t := s.only r.owner) hs rfl hr
    (decide_eq_true rfl)] at h
  exact Store.mem_rowsOf.mp (List.mem_reverse.mp (mem_of_nearest h))

/-- The nearest rows above rows of some owners are rows of these. -/
theorem nearestAbove_of_owners {rows : List Row}
    (h : ∀ r ∈ rows, r ∈ s.rows ∧ K r.owner = true) (p : Row → Bool) :
    nearestAbove t p rows = nearestAbove s p rows := by
  have hfound : (rows.filterMap fun r => (nearest p r.parent t.rows.reverse).map Row.id)
      = rows.filterMap fun r => (nearest p r.parent s.rows.reverse).map Row.id :=
    List.filterMap_congr fun r hr => by rw [nearest_of_owners hs hrows (h r hr).1 (h r hr).2]
  simp only [nearestAbove]
  rw [hfound, hrows, List.filter_filter]
  refine List.filter_congr fun r hr => ?_
  cases hcontains : (rows.filterMap fun r =>
      (nearest p r.parent s.rows.reverse).map Row.id).contains r.id with
  | false => simp
  | true =>
      obtain ⟨x, hx, hfound⟩ := List.mem_filterMap.mp (List.contains_iff_mem.mp hcontains)
      obtain ⟨top, htop, hid⟩ := Option.map_eq_some_iff.mp hfound
      obtain ⟨hmem, howner⟩ := owner_of_nearest hs (h x hx).1 htop
      obtain rfl := hs.eq_of_id hmem hr hid
      simp [howner, (h x hx).2]

end Owners

/-! ## Rows and nodes -/

section

variable {s : Store} {owner : Nat}

theorem rowsAtAny_only (s : Store) (owner : Nat) (paths : List String) :
    (s.only owner).rowsAtAny owner paths = s.rowsAtAny owner paths := by
  simp only [Store.rowsAtAny, Store.only, Store.rowsOf, List.filter_filter]
  refine List.filter_congr fun r _ => ?_
  cases decide (r.owner = owner) <;> simp

theorem rowAt?_only (s : Store) (owner : Nat) (path : String) :
    (s.only owner).rowAt? owner path = s.rowAt? owner path := by
  simp only [Store.rowAt?, Store.only, Store.rowsOf, List.find?_filter]
  congr 1
  funext r
  cases decide (r.owner = owner) <;> simp

/-- A row reads the same among the rows of its owner. -/
theorem node_only (hs : s.Sound) {r : Row} (hr : r ∈ s.rowsOf owner) (fetch : Fetch) :
    (s.only owner).node fetch r = s.node fetch r := by
  obtain ⟨hr, howner⟩ := Store.mem_rowsOf.mp hr
  exact node_of_owners (K := fun id => id = owner) hs rfl hr (by simpa using howner) fetch

theorem nodes_only (hs : s.Sound) {rows : List Row} (hrows : ∀ r ∈ rows, r ∈ s.rowsOf owner)
    (fetch : Fetch) : (s.only owner).nodes fetch rows = s.nodes fetch rows :=
  mapM_congr fun r hr => node_only hs (hrows r hr) fetch

/-! ## Queries -/

theorem isNamed_only (s : Store) (owner : Nat) (q : Query) :
    isNamed (s.only owner) (.owner owner) q = isNamed s (.owner owner) q := by
  funext r
  simp only [isNamed, Scope.covers, hasParentAt, rowAt?_only]

theorem filter_isNamed_only (s : Store) (owner : Nat) (q : Query) :
    (s.only owner).rows.filter (isNamed (s.only owner) (.owner owner) q)
      = s.rows.filter (isNamed s (.owner owner) q) := by
  rw [isNamed_only, Store.only, Store.rowsOf, List.filter_filter]
  refine List.filter_congr fun r _ => ?_
  by_cases howner : r.owner = owner
  · simp [howner]
  · simp [howner, isNamed, Scope.covers]

/-- The nearest rows above rows of an owner are rows of that owner. -/
theorem nearestAbove_only (hs : s.Sound) {rows : List Row}
    (hrows : ∀ r ∈ rows, r ∈ s.rowsOf owner) (p : Row → Bool) :
    nearestAbove (s.only owner) p rows = nearestAbove s p rows := by
  refine nearestAbove_of_owners (K := fun id => id = owner) hs rfl (fun r hr => ?_) p
  simpa using Store.mem_rowsOf.mp (hrows r hr)

/-- What a query selects for an owner are rows of that owner. -/
theorem select_only (hs : s.Sound) (q : Selector) :
    (s.only owner).select (.owner owner) q = s.select (.owner owner) q := by
  refine Store.select_congr ?_
  rw [Store.pick, Store.pick, filter_isNamed_only]
  cases hrows : filterByLeaves q.query (s.rows.filter (isNamed s (.owner owner) q.query)) with
  | error e => rfl
  | ok rows =>
      have hown : ∀ r ∈ rows, r ∈ s.rowsOf owner := by
        intro r hr
        have hnamed := mem_of_filterByLeaves hrows r hr
        rw [← filter_isNamed_only] at hnamed
        exact (List.mem_filter.mp hnamed).1
      cases q.ancestor with
      | none => rfl
      | some a => exact congrArg (filterByLeaves a) (nearestAbove_only hs hown _)

/-- The rows that a query selects are stored. -/
theorem mem_of_select {t : Store} {scope : Scope} {q : Selector} {rows : List Row}
    (h : t.select scope q = .ok rows) : ∀ r ∈ rows, r ∈ t.rows := by
  intro r hr
  obtain ⟨named, hnamed, h⟩ := bind_eq_ok_iff.mp (Store.select_eq_ok_iff.mp h).2
  split at h
  · cases h
    exact (List.mem_filter.mp (mem_of_filterByLeaves hnamed r hr)).1
  · exact (List.mem_filter.mp (mem_of_filterByLeaves h r hr)).1

end

/-! ## Reads through an owner -/

section

variable {s : Store} (hs : s.Sound) (owner : Owner)

include hs

theorem getMany_only (paths : List String) (fetch : Fetch) :
    (s.only owner.id).getMany owner paths fetch = s.getMany owner paths fetch := by
  rw [Store.getMany, Store.getMany, rowsAtAny_only]
  exact nodes_only hs (fun r hr => Store.mem_rowsOf_of_lookup hr) fetch

theorem get_only (path : String) (fetch : Fetch) :
    (s.only owner.id).get owner path fetch = s.get owner path fetch := by
  rw [Store.get, Store.get, getMany_only hs]

theorem query_only (path : String) (fetch : Fetch) :
    (s.only owner.id).query owner path fetch = s.query owner path fetch := by
  rw [Store.query, Store.query]
  split
  · exact getMany_only hs owner [rootPath] fetch
  · cases readSelector path with
    | error e => rfl
    | ok q =>
        show (s.only owner.id).select (.owner owner.id) q >>= _
          = s.select (.owner owner.id) q >>= _
        cases hrows : (s.only owner.id).select (.owner owner.id) q with
        | error e =>
            rw [select_only hs] at hrows
            rw [hrows]
            rfl
        | ok rows =>
            have hown := mem_of_select hrows
            rw [select_only hs] at hrows
            rw [hrows]
            exact nodes_only hs hown fetch

end

end DataTree
