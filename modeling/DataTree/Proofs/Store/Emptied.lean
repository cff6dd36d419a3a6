import DataTree.Proofs.Store.Across
import DataTree.Proofs.Store.Branches
import DataTree.Proofs.Store.Isolation

/-!
# Owners that are emptied

To empty an owner only the roots of its trees are removed; its other rows hang
below these, and no row of another owner does.  So the rows of the owner are
gone, at every depth, and those of the others are as they were.  Emptying one
owner leaves the next one with the roots that it had, and that is why owners
can be emptied together or one by one and in any order.

The engine does not follow a tree all the way down, though.  An owner with a row
too far below another keeps all its rows, and keeps those of the others, too, if
they were to be emptied together.

## Main definitions

* `Write.Clears` — writes that empty their owner.
* `Store.Reaches` — how far below each other an owner has rows.
* `Store.without` — a store without the rows of some owners.
* `Store.deleteAllInTurn` — owners emptied by a write each.

## Main results

* `treesTooDeep_iff` — the owners that are not emptied.
* `write_of_clears` — what is left of the rows, and what is counted.
* `clearOwners_eq`, `deleteAllInTurn_eq` — many owners emptied in either way.
* `owners_emptied` — both, and the removal of an owner, after any operations.
-/

namespace DataTree

open DataTree.Path

/-- Whether a write removes all trees of its owner, because it is there for
that or through the root marker. -/
def Write.Clears : Write → Prop
  | .deleteAll => True
  | .delete path => isRoot path = true
  | .deleteMany paths => ∃ path ∈ paths, isRoot path = true
  | _ => False

/-- The entry of an owner in the table. -/
def Owner.row (o : Owner) : OwnerRow := ⟨o.id, o.dataspaceId, o.name⟩

namespace Store

/-- Whether an owner has a row so many levels below another. -/
def Reaches (s : Store) (owner levels : Nat) : Prop :=
  ∃ a r, a.owner = owner ∧ Descends s.rows levels a r

/-- A store without the rows of some owners. -/
def without (s : Store) (owners : List Nat) : Store :=
  { s with rows := s.rows.filter fun r => r.owner ∉ owners }

/-- All trees of some owners removed by one write each, and the answer under
the name of each. -/
def deleteAllInTurn (s : Store) : List Owner → Store × List (String × Outcome Summary)
  | [] => (s, [])
  | o :: rest =>
    let cleared := s.write .readWrite o .deleteAll
    let more := cleared.1.deleteAllInTurn rest
    (more.1, (o.name, cleared.2) :: more.2)

/-- The summary for an owner that is emptied: the roots of its trees are
counted. -/
def emptiedSummary (s : Store) (owner : Nat) : Summary :=
  { deleted := (s.childRows owner none).length }

/-- What a write that empties an owner answers. -/
def emptiedAnswer (s : Store) (owner : Nat) : Outcome Summary :=
  if s.treesTooDeep owner then .error (.engine .deepCascade) else .ok (s.emptiedSummary owner)

section

variable {s : Store}

theorem without_nil (s : Store) : s.without [] = s := by
  simp [without]

theorem without_without (s : Store) (owner : Nat) (owners : List Nat) :
    (s.without [owner]).without owners = s.without (owner :: owners) := by
  simp only [without, List.filter_filter, List.mem_cons, List.not_mem_nil, or_false, not_or,
    Bool.decide_and, Bool.and_comm]

/-- It does not matter in which order the owners are named. -/
theorem without_perm {owners owners' : List Nat} (h : owners.Perm owners') :
    s.without owners = s.without owners' := by
  simp only [without, h.mem_iff]

/-- Emptying one owner leaves the trees of another. -/
theorem emptiedSummary_without {owner other : Nat} (hne : other ≠ owner) :
    (s.without [owner]).emptiedSummary other = s.emptiedSummary other := by
  have hroots : (s.without [owner]).childRows other none = s.childRows other none := by
    rw [childRows, without, List.filter_filter, childRows]
    apply List.filter_congr
    intro r hr
    by_cases howner : r.owner = other
    · simp [howner, hne]
    · simp [howner]
  rw [emptiedSummary, hroots, emptiedSummary]

/-- The same for all that are yet to be emptied. -/
theorem map_emptiedSummary_without {β : Type} {owner : Nat} {rest : List OwnerRow}
    (hnew : owner ∉ rest.map OwnerRow.id) (f : OwnerRow → Summary → β) :
    (rest.map fun o => f o ((s.without [owner]).emptiedSummary o.id))
      = rest.map fun o => f o (s.emptiedSummary o.id) := by
  apply List.map_congr_left
  intro o ho
  have hne : o.id ≠ owner := fun hsame => hnew (hsame ▸ List.mem_map_of_mem ho)
  rw [emptiedSummary_without hne]

/-! ## One owner -/

/-- Where all roots of an owner go, and no row of another, all its rows go. -/
theorem falls_iff_of_roots (hs : s.Sound) {owner : Nat} {p : Row → Bool}
    (hroots : ∀ r ∈ s.rows, r.owner = owner → r.parent = none → p r = true)
    (hown : ∀ r ∈ s.rows, p r = true → r.owner = owner) {r : Row} (hr : r ∈ s.rows) :
    Falls p s.rows r ↔ r.owner = owner := by
  constructor
  · rintro ⟨a, hbelow, ha⟩
    rw [← (hs.eq_or_extends hbelow).1]
    exact hown a hbelow.mem_top ha
  · intro howner
    obtain ⟨top, htop, hnone, hsame, hbelow⟩ := hs.exists_root hr
    exact ⟨top, hbelow, hroots top htop (hsame.trans howner) hnone⟩

theorem removeRows_of_roots (hs : s.Sound) {owner : Nat} {p : Row → Bool}
    (hroots : ∀ r ∈ s.rows, r.owner = owner → r.parent = none → p r = true)
    (hown : ∀ r ∈ s.rows, p r = true → r.owner = owner) :
    (s.removeRows p).1 = s.without [owner] := by
  have hrows : survivors p [] s.rows = s.rows.filter fun r => r.owner ∉ [owner] := by
    apply survivors_eq_filter hs.ordered
    intro r hr
    rw [falls_iff_of_roots hs hroots hown hr]
    simp
  rw [removeRows, hrows, without]

theorem removeRows_roots (hs : s.Sound) (owner : Nat) :
    (s.removeRows fun r => r.owner = owner && r.parent.isNone).1 = s.without [owner] := by
  apply removeRows_of_roots hs
  · intro r _ howner hnone
    simp [howner, hnone]
  · intro r _ hp
    rw [Bool.and_eq_true, decide_eq_true_eq] at hp
    exact hp.1

/-- Nothing is above a root, so each one is counted. -/
theorem directRemovals_roots (hs : s.Sound) (owner : Nat) :
    (s.removeRows fun r => r.owner = owner && r.parent.isNone).2
      = (s.childRows owner none).length := by
  classical
  show directRemovals _ [] s.rows = _
  rw [directRemovals_eq hs.ordered, childRows, ← List.countP_eq_length_filter]
  apply List.countP_congr
  intro r hr
  rw [decide_eq_true_eq, Topmost]
  simp only [Bool.and_eq_true, decide_eq_true_eq, Option.isNone_iff_eq_none]
  constructor
  · exact fun h => h.1
  · intro hroot
    refine ⟨hroot, fun a hbelow _ => ?_⟩
    rcases hbelow.eq_or_step with hsame | ⟨q, -, hparent⟩
    · exact hsame
    · rw [hroot.2] at hparent
      cases hparent

theorem sound_without (hs : s.Sound) (owner : Nat) : (s.without [owner]).Sound := by
  rw [← removeRows_roots hs]
  exact hs.removeRows _

/-! ### Rows too far down -/

/-- Where all roots of an owner go, and no row of another, the engine gives up on the
owners that have a row too far below another. -/
theorem goesTooDeep_iff_of_roots (hs : s.Sound) {owner : Nat} {p : Row → Bool}
    (hroots : ∀ r ∈ s.rows, r.owner = owner → r.parent = none → p r = true)
    (hown : ∀ r ∈ s.rows, p r = true → r.owner = owner) {top levels : Nat}
    (hlevels : top + levels = maxCascade) :
    s.goesTooDeep p top = true ↔ s.Reaches owner levels := by
  rw [goesTooDeep_iff hs.ordered]
  constructor
  · rintro ⟨a, r, n, hdescends, ha, hle⟩
    obtain ⟨q, hq⟩ := hdescends.exists_at (show levels ≤ n by omega)
    exact ⟨a, q, hown a hdescends.mem_top ha, hq⟩
  · rintro ⟨a, r, howner, hdescends⟩
    obtain ⟨top', htop, hnone, hsame, hbelow⟩ := hs.exists_root hdescends.mem_top
    obtain ⟨n, hn⟩ := hbelow.descends
    exact ⟨top', r, n + levels, hn.trans hdescends,
      hroots top' htop (hsame.trans howner) hnone, by omega⟩

theorem treesTooDeep_iff (hs : s.Sound) (owner : Nat) :
    s.treesTooDeep owner = true ↔ s.Reaches owner maxCascade := by
  apply goesTooDeep_iff_of_roots hs
  · intro r _ howner hnone
    simp [howner, hnone]
  · intro r _ hp
    rw [Bool.and_eq_true, decide_eq_true_eq] at hp
    exact hp.1
  · exact Nat.zero_add _

/-- Emptying one owner leaves the rows of another as far down as they were. -/
theorem reaches_without (hs : s.Sound) {owner other levels : Nat} (hne : other ≠ owner) :
    (s.without [owner]).Reaches other levels ↔ s.Reaches other levels := by
  constructor
  · rintro ⟨a, r, howner, hdescends⟩
    exact ⟨a, r, howner, hdescends.mono fun q hq => (List.mem_filter.mp hq).1⟩
  · rintro ⟨a, r, howner, hdescends⟩
    refine ⟨a, r, howner, ?_⟩
    -- all rows on the way down belong to the owner
    have hstays : ∀ q, AtOrBelow s.rows a q → q ∈ (s.without [owner]).rows := by
      intro q hbelow
      have hother : q.owner ≠ owner := by
        rw [← (hs.eq_or_extends hbelow).1, howner]
        exact hne
      exact List.mem_filter.mpr ⟨hbelow.mem, by simpa using hother⟩
    induction hdescends with
    | self hr => exact .self (hstays _ (.self hr))
    | step hq hr hparent ih =>
        exact (ih howner hstays).step (hstays _ (hq.atOrBelow.step hr hparent)) hparent

theorem emptiedAnswer_without (hs : s.Sound) {owner other : Nat} (hne : other ≠ owner) :
    (s.without [owner]).treesTooDeep other = s.treesTooDeep other
      ∧ (s.without [owner]).emptiedAnswer other = s.emptiedAnswer other := by
  have hdeep : (s.without [owner]).treesTooDeep other = s.treesTooDeep other := by
    rw [Bool.eq_iff_iff, treesTooDeep_iff (sound_without hs owner), treesTooDeep_iff hs,
      reaches_without hs hne]
  exact ⟨hdeep, by rw [emptiedAnswer, hdeep, emptiedSummary_without hne, emptiedAnswer]⟩

end

end Store

theorem Write.plan_of_clears {w : Write} (h : w.Clears) (s : Store) (owner : Owner) :
    w.plan s owner = .ok .clear := by
  cases w with
  | deleteAll => rfl
  | delete path =>
      have hroot : isRoot path = true := h
      rw [Write.plan, planDelete, if_pos hroot]
  | deleteMany paths =>
      have hroot : paths.any isRoot = true := List.any_eq_true.mpr h
      rw [Write.plan, planDeleteMany, if_pos hroot]
  | _ => cases h

/-- A write that empties its owner takes all rows of the owner, or the engine refuses it. -/
theorem write_of_clears {s : Store} (hs : s.Sound) {w : Write} (h : w.Clears) (owner : Owner) :
    s.write .readWrite owner w = (if s.treesTooDeep owner.id then s else s.without [owner.id],
      s.emptiedAnswer owner.id) := by
  rw [Store.write, Write.plan_of_clears h]
  show Change.remove s (fun r => r.owner = owner.id && r.parent.isNone) = _
  rw [Store.emptiedAnswer]
  cases hdeep : s.treesTooDeep owner.id with
  | true => exact Change.remove_of_deep hdeep
  | false =>
      rw [Change.remove_of_shallow hdeep, Store.removeRows_roots hs, Store.directRemovals_roots hs]
      rfl

theorem write_of_clears_of_shallow {s : Store} (hs : s.Sound) {w : Write} (h : w.Clears)
    {owner : Owner} (hshallow : ¬s.Reaches owner.id Store.maxCascade) :
    s.write .readWrite owner w = (s.without [owner.id], .ok (s.emptiedSummary owner.id)) := by
  have hdeep := mt (Store.treesTooDeep_iff hs owner.id).mp hshallow
  rw [write_of_clears hs h, Store.emptiedAnswer, if_neg hdeep, if_neg hdeep]

theorem write_of_clears_of_deep {s : Store} (hs : s.Sound) {w : Write} (h : w.Clears)
    {owner : Owner} (hdeep : s.Reaches owner.id Store.maxCascade) :
    s.write .readWrite owner w = (s, .error (.engine .deepCascade)) := by
  have hdeep := (Store.treesTooDeep_iff hs owner.id).mpr hdeep
  rw [write_of_clears hs h, Store.emptiedAnswer, if_pos hdeep, if_pos hdeep]

/-! ## Many owners -/

section

variable {s : Store}

/-- Owners emptied by a write each: each is answered as it would be alone, and those that
are too deep stay. -/
theorem deleteAllInTurn_eq (hs : s.Sound) {owners : List Owner}
    (hids : (owners.map Owner.id).Nodup) :
    s.deleteAllInTurn owners =
      (s.without ((owners.filter fun o => !s.treesTooDeep o.id).map Owner.id),
        owners.map fun o => (o.name, s.emptiedAnswer o.id)) := by
  induction owners generalizing s with
  | nil =>
      show (s, []) = (s.without [], [])
      rw [Store.without_nil]
  | cons o rest ih =>
      obtain ⟨hnew, hrest⟩ := List.nodup_cons.mp hids
      have hclear := write_of_clears hs (w := .deleteAll) trivial o
      rw [Store.deleteAllInTurn, hclear]
      cases hdeep : s.treesTooDeep o.id with
      | true =>
          simp only [if_true, List.filter_cons, hdeep, Bool.not_true, Bool.false_eq_true, if_false]
          rw [ih hs hrest]
          rfl
      | false =>
          have hothers : ∀ p ∈ rest, (s.without [o.id]).treesTooDeep p.id = s.treesTooDeep p.id
              ∧ (s.without [o.id]).emptiedAnswer p.id = s.emptiedAnswer p.id := fun p hp =>
            Store.emptiedAnswer_without hs fun hsame => hnew (hsame ▸ List.mem_map_of_mem hp)
          have hshallow : (rest.filter fun p => !(s.without [o.id]).treesTooDeep p.id)
              = rest.filter fun p => !s.treesTooDeep p.id :=
            List.filter_congr fun p hp => by rw [(hothers p hp).1]
          have hanswers : (rest.map fun p => (p.name, (s.without [o.id]).emptiedAnswer p.id))
              = rest.map fun p => (p.name, s.emptiedAnswer p.id) :=
            List.map_congr_left fun p hp => by rw [(hothers p hp).2]
          simp only [List.filter_cons, hdeep, Bool.not_false, Bool.false_eq_true, if_true,
            if_false]
          rw [ih (Store.sound_without hs o.id) hrest, hshallow, hanswers, Store.without_without]
          rfl

/-- Owners emptied together. -/
theorem clearOwners_eq (hs : s.Sound) {owners : List OwnerRow}
    (hids : (owners.map OwnerRow.id).Nodup) (hnames : (owners.map OwnerRow.name).Nodup) :
    s.clearOwners owners = (s.without (owners.map OwnerRow.id),
      Keyed.ofList (owners.map fun o => (o.name, s.emptiedSummary o.id))) := by
  induction owners generalizing s with
  | nil =>
      show (s, []) = (s.without [], [])
      rw [Store.without_nil]
  | cons o rest ih =>
      obtain ⟨hnew, hrest⟩ := List.nodup_cons.mp hids
      have hkeys : ((o :: rest).map fun p => (p.name, s.emptiedSummary p.id)).map (·.1)
          = (o :: rest).map OwnerRow.name := List.map_map
      rw [Store.clearOwners, Store.removeRows_roots hs, Store.directRemovals_roots hs,
        ih (Store.sound_without hs o.id) hrest (List.nodup_cons.mp hnames).2,
        Store.map_emptiedSummary_without hnew fun p summary => (p.name, summary),
        Store.without_without, List.map_cons, List.map_cons, Keyed.ofList_cons (hkeys ▸ hnames)]
      rfl

/-- The owners of one dataspace have different names. -/
theorem Store.Named.nodup_names (h : s.Named) (dataspace : Nat) (p : String → Bool) :
    ((s.owners.filter fun o => o.dataspaceId = dataspace && p o.name).map OwnerRow.name).Nodup := by
  apply List.pairwise_map.mpr
  have happart := List.Pairwise.filter (fun o => o.dataspaceId = dataspace && p o.name) h
  apply happart.imp_of_mem
  intro o o' ho ho' hname
  simp only [List.mem_filter, Bool.and_eq_true, decide_eq_true_eq] at ho ho'
  exact hname (ho.2.1.trans ho'.2.1.symm)

/-- Owners emptied together, unless one of them is too deep. -/
theorem deleteForOwners_eq (s : Store) (dataspace : Dataspace) (names : List String) :
    let owners := s.owners.filter fun o =>
      o.dataspaceId = dataspace.id && names.contains o.name
    s.deleteForOwners .readWrite dataspace names =
      if owners.any fun o => s.treesTooDeep o.id then (s, .error (.engine .deepCascade))
      else ((s.clearOwners owners).1, .ok (s.clearOwners owners).2) := by
  intro owners
  rw [Store.deleteForOwners]
  split
  · rename_i hnone
    have hnil : owners = [] := List.isEmpty_iff.mp hnone
    rw [hnil]
    rfl
  · rfl

/-- Together or one by one, in any order. -/
theorem deleteForOwners_eq_inTurn (hs : s.Sound) (hids : s.Numbered) (hnames : s.Named)
    {dataspace : Dataspace} {names : List String} {order : List Owner}
    (horder : (order.map Owner.row).Perm (s.owners.filter fun o =>
      o.dataspaceId = dataspace.id && names.contains o.name))
    (hshallow : ∀ o ∈ order, s.treesTooDeep o.id = false) :
    ∃ s' summaries, s.deleteAllInTurn order = (s', summaries.map fun e => (e.1, .ok e.2))
      ∧ s.deleteForOwners .readWrite dataspace names = (s', .ok (Keyed.ofList summaries))
      ∧ (Keyed.ofList summaries).Perm summaries := by
  rw [deleteForOwners_eq]
  generalize howners : (s.owners.filter fun o =>
    o.dataspaceId = dataspace.id && names.contains o.name) = owners at horder ⊢
  have hdistinct : (owners.map OwnerRow.id).Nodup := by
    rw [← howners]
    exact List.pairwise_map.mpr ((hids.ids.imp Nat.ne_of_lt).filter _)
  have hnamed : (owners.map OwnerRow.name).Nodup := by
    rw [← howners]
    exact hnames.nodup_names dataspace.id names.contains
  have hperm : (order.map Owner.id).Perm (owners.map OwnerRow.id) := by
    have hmap := horder.map OwnerRow.id
    rwa [List.map_map] at hmap
  let summaries := order.map fun o => (o.name, s.emptiedSummary o.id)
  have hsummaries : summaries.Perm (owners.map fun o => (o.name, s.emptiedSummary o.id)) := by
    have hmap := horder.map fun o => (o.name, s.emptiedSummary o.id)
    rwa [List.map_map] at hmap
  have hkeys : (summaries.map (·.1)).Nodup := by
    have hlisted : (owners.map fun o => (o.name, s.emptiedSummary o.id)).map (·.1)
        = owners.map OwnerRow.name := List.map_map
    rw [← hlisted] at hnamed
    exact (hsummaries.map _).nodup_iff.mpr hnamed
  refine ⟨s.without (order.map Owner.id), summaries, ?_, ?_, Keyed.ofList_perm hkeys⟩
  · have hall : (order.filter fun o => !s.treesTooDeep o.id) = order :=
      List.filter_eq_self.mpr fun o ho => by rw [hshallow o ho]; rfl
    rw [deleteAllInTurn_eq hs (hperm.nodup_iff.mpr hdistinct), hall, List.map_map]
    refine congrArg (Prod.mk _) (List.map_congr_left fun o ho => ?_)
    rw [Store.emptiedAnswer, hshallow o ho]
    rfl
  · have hnone : ¬(owners.any fun o => s.treesTooDeep o.id) = true := by
      rw [List.any_eq_true]
      rintro ⟨p, hp, hdeep⟩
      obtain ⟨o, ho, rfl⟩ := List.mem_map.mp (horder.mem_iff.mpr hp)
      rw [show s.treesTooDeep o.row.id = false from hshallow o ho] at hdeep
      cases hdeep
    rw [if_neg hnone, clearOwners_eq hs hdistinct hnamed, Store.without_perm hperm,
      Keyed.ofList_eq_of_perm hsummaries hkeys]

/-- One owner that is too deep keeps the others as they are, too. -/
theorem deleteForOwners_of_deep {dataspace : Dataspace} {names : List String}
    {order : List Owner} (horder : (order.map Owner.row).Perm (s.owners.filter fun o =>
      o.dataspaceId = dataspace.id && names.contains o.name))
    (hdeep : ∃ o ∈ order, s.treesTooDeep o.id = true) :
    s.deleteForOwners .readWrite dataspace names = (s, .error (.engine .deepCascade)) := by
  obtain ⟨o, ho, hdeep⟩ := hdeep
  rw [deleteForOwners_eq]
  exact if_pos (List.any_eq_true.mpr
    ⟨o.row, horder.mem_iff.mp (List.mem_map_of_mem ho), hdeep⟩)

end

/-! ## One owner with its lock -/

section

variable {s : Store}

/-- The rows of an owner that is removed are one level further down. -/
theorem goesTooDeep_owner_iff (hs : s.Sound) (owner : Nat) :
    s.goesTooDeep (fun r => r.owner = owner) 1 = true ↔ s.Reaches owner 999 :=
  Store.goesTooDeep_iff_of_roots hs (fun _ _ howner _ => decide_eq_true howner)
    (fun _ _ hp => of_decide_eq_true hp) rfl

theorem deleteOwner_of_shallow (hs : s.Sound) {owner : Owner}
    (hthere : s.hasOwner owner.id = true) (hshallow : ¬s.Reaches owner.id 999) :
    s.deleteOwner .readWrite owner = ({ s with
      rows := (s.without [owner.id]).rows
      owners := s.owners.filter fun o => o.id ≠ owner.id
      locks := s.locks.filter fun l => l.owner ≠ owner.id }, .ok ()) := by
  have hrows : (s.removeRows fun r => r.owner = owner.id).1 = s.without [owner.id] :=
    Store.removeRows_of_roots hs (fun r _ howner _ => decide_eq_true howner)
      fun r _ hp => of_decide_eq_true hp
  rw [Store.deleteOwner, if_pos hthere, if_neg (mt (goesTooDeep_owner_iff hs owner.id).mp hshallow),
    hrows]
  rfl

theorem deleteOwner_of_deep (hs : s.Sound) {owner : Owner} (hthere : s.hasOwner owner.id = true)
    (hdeep : s.Reaches owner.id 999) :
    s.deleteOwner .readWrite owner = (s, .error (.engine .deepCascade)) := by
  rw [Store.deleteOwner, if_pos hthere, if_pos ((goesTooDeep_owner_iff hs owner.id).mpr hdeep)]
  rfl

end

/-! ## After any operations -/

/-- Whatever operations have been run, a write that empties an owner takes all
its rows and no other, and counts its trees, unless the owner has a row 1000
levels below another: then nothing changes.  If none of the named owners of a
dataspace has, emptying them together comes to the same as emptying each that
is there once, in any order: the same store, and the same summary for each.
If one has, they all stay when they are to be emptied together, and one by one
only those that have: each of them is answered as it would be alone.  An owner
that is removed takes along its rows and the lock on it, and nothing of another
owner; there a row 999 levels below another is too much. -/
theorem owners_emptied (history : List Operation) :
    let s := Store.empty.after history
    (∀ (owner : Owner) (w : Write), w.Clears →
        (¬s.Reaches owner.id 1000 → s.write .readWrite owner w
          = (s.without [owner.id], .ok { deleted := (s.childRows owner.id none).length }))
        ∧ (s.Reaches owner.id 1000 →
          s.write .readWrite owner w = (s, .error (.engine .deepCascade))))
      ∧ (∀ (dataspace : Dataspace) (names : List String) (order : List Owner),
        (order.map Owner.row).Perm (s.owners.filter fun o =>
          o.dataspaceId = dataspace.id && names.contains o.name) →
        ((∀ o ∈ order, ¬s.Reaches o.id 1000) →
          ∃ s' summaries, s.deleteAllInTurn order = (s', summaries.map fun e => (e.1, .ok e.2))
            ∧ s.deleteForOwners .readWrite dataspace names = (s', .ok (Keyed.ofList summaries))
            ∧ (Keyed.ofList summaries).Perm summaries)
        ∧ ((∃ o ∈ order, s.Reaches o.id 1000) →
          s.deleteForOwners .readWrite dataspace names = (s, .error (.engine .deepCascade))
            ∧ ∃ emptied, s.deleteAllInTurn order = (s.without emptied,
                order.map fun o => (o.name, (s.write .readWrite o .deleteAll).2))
              ∧ ∀ id, id ∈ emptied ↔ ¬s.Reaches id 1000 ∧ ∃ o ∈ order, o.id = id))
      ∧ ∀ owner : Owner, s.hasOwner owner.id = true →
        (¬s.Reaches owner.id 999 → s.deleteOwner .readWrite owner
          = ({ s with
                rows := (s.without [owner.id]).rows
                owners := s.owners.filter fun o => o.id ≠ owner.id
                locks := s.locks.filter fun l => l.owner ≠ owner.id }, .ok ()))
        ∧ (s.Reaches owner.id 999 →
          s.deleteOwner .readWrite owner = (s, .error (.engine .deepCascade))) := by
  intro s
  have hs : s.Sound := sound_after history
  refine ⟨fun owner w hclears => ⟨write_of_clears_of_shallow hs hclears,
    write_of_clears_of_deep hs hclears⟩, ?_, fun owner hthere =>
    ⟨deleteOwner_of_shallow hs hthere, deleteOwner_of_deep hs hthere⟩⟩
  intro dataspace names order horder
  have hids : s.Numbered := numbered_after history
  refine ⟨fun hshallow => ?_, fun ⟨o, ho, hdeep⟩ => ⟨?_, ?_⟩⟩
  · refine deleteForOwners_eq_inTurn hs hids (named_after history) horder fun o ho => ?_
    exact Bool.eq_false_iff.mpr (mt (Store.treesTooDeep_iff hs o.id).mp (hshallow o ho))
  · exact deleteForOwners_of_deep horder ⟨o, ho, (Store.treesTooDeep_iff hs o.id).mpr hdeep⟩
  · have hdistinct : (order.map Owner.id).Nodup := by
      have hmap := horder.map OwnerRow.id
      rw [List.map_map] at hmap
      exact hmap.nodup_iff.mpr (List.pairwise_map.mpr ((hids.ids.imp Nat.ne_of_lt).filter _))
    have hanswers : (order.map fun o => (o.name, (s.write .readWrite o .deleteAll).2))
        = order.map fun o => (o.name, s.emptiedAnswer o.id) :=
      List.map_congr_left fun p _ => by rw [write_of_clears hs (w := .deleteAll) trivial]
    refine ⟨_, by rw [deleteAllInTurn_eq hs hdistinct, hanswers], fun id => ?_⟩
    simp only [List.mem_map, List.mem_filter, Bool.not_eq_true']
    constructor
    · rintro ⟨p, ⟨hp, hshallow⟩, rfl⟩
      refine ⟨fun hdeep => ?_, p, hp, rfl⟩
      rw [(Store.treesTooDeep_iff hs p.id).mpr hdeep] at hshallow
      cases hshallow
    · rintro ⟨hshallow, p, hp, rfl⟩
      exact ⟨p, ⟨hp, Bool.eq_false_iff.mpr (mt (Store.treesTooDeep_iff hs p.id).mp hshallow)⟩, rfl⟩

/-- Two owners of equal trees and one without any, locked and named more than
once, beside an owner of the same name in another dataspace. -/
theorem owners_emptied_of_equal_names :
    let a : Owner := ⟨1, 1, "d", "a"⟩
    let b : Owner := ⟨2, 1, "d", "b"⟩
    let bare : Owner := ⟨3, 1, "d", "c"⟩
    let apart : Owner := ⟨4, 2, "e", "a"⟩
    let inner : Node := .mk "/x/y[@k='1']" [] [("/x/y[@k='1']/z", .leafless "/x/y[@k='1']/z")]
    let tree : Node := .mk "/x" [] [(inner.path, inner)]
    let handle : Handle := { access := .readWrite, lease := 1000, sessions := ["t"] }
    let request := Operation.request .readWrite
    let history := [request (.createDataspace "d"), request (.createDataspace "e"),
      request (.createOwner ⟨1, "d"⟩ "a"), request (.createOwner ⟨1, "d"⟩ "b"),
      request (.createOwner ⟨1, "d"⟩ "c"), request (.createOwner ⟨2, "e"⟩ "a"),
      request (.write a (.store [tree, .leafless "/w"])), request (.write b (.store [tree])),
      request (.write apart (.store [tree])), .lock handle "t" a 5 0, .lock handle "t" b 6 0]
    let s := Store.empty.after history
    let names := ["c", "a", "n", "a"]
    s.write .readWrite a (.deleteMany ["/w", "/"]) = (s.without [a.id], .ok { deleted := 2 })
      ∧ (s.without [a.id]).rows.map (fun r => (r.id, r.owner, r.path))
        = [(5, 2, "/x"), (6, 2, "/x/y[@k='1']"), (7, 2, "/x/y[@k='1']/z"),
          (8, 4, "/x"), (9, 4, "/x/y[@k='1']"), (10, 4, "/x/y[@k='1']/z")]
      ∧ (∃ s' summaries,
        s.deleteAllInTurn [bare, a] = (s', summaries.map fun e => (e.1, .ok e.2))
          ∧ s.deleteForOwners .readWrite ⟨1, "d"⟩ names = (s', .ok (Keyed.ofList summaries))
          ∧ (Keyed.ofList summaries).Perm summaries)
      ∧ (s.deleteForOwners .readWrite ⟨1, "d"⟩ names).2
        = .ok [("a", { deleted := 2 }), ("c", { deleted := 0 })]
      ∧ s.deleteOwner .readWrite b = ({ s with
          rows := (s.without [b.id]).rows
          owners := [a.row, bare.row, apart.row]
          locks := [⟨a.id, "t", 5⟩] }, .ok ()) := by
  intro a b bare apart inner tree handle request history s names
  obtain ⟨hclear, htogether, hremove⟩ := owners_emptied history
  have hroot : (Write.deleteMany ["/w", "/"]).Clears := ⟨"/", by decide, by decide⟩
  obtain ⟨horder, hthere, hroots, howners, hlocks, hrows, hsummaries⟩ :
      ([bare, a].map Owner.row).Perm
          (s.owners.filter fun o => o.dataspaceId = 1 && names.contains o.name)
        ∧ s.hasOwner b.id = true
        ∧ (s.childRows a.id none).length = 2
        ∧ s.owners.filter (fun o => o.id ≠ b.id) = [a.row, bare.row, apart.row]
        ∧ s.locks.filter (fun l => l.owner ≠ b.id) = [⟨a.id, "t", 5⟩]
        ∧ (s.without [a.id]).rows.map (fun r => (r.id, r.owner, r.path))
          = [(5, 2, "/x"), (6, 2, "/x/y[@k='1']"), (7, 2, "/x/y[@k='1']/z"),
            (8, 4, "/x"), (9, 4, "/x/y[@k='1']"), (10, 4, "/x/y[@k='1']/z")]
        ∧ (s.deleteForOwners .readWrite ⟨1, "d"⟩ names).2.toOption
          = some [("a", { deleted := 2 }), ("c", { deleted := 0 })] := by
    decide +kernel
  obtain ⟨hshallow, hshallowOwner⟩ : (∀ o ∈ [bare, a], s.treesTooDeep o.id = false)
      ∧ s.goesTooDeep (fun r => r.owner = b.id) 1 = false := by
    decide +kernel
  have hs : s.Sound := sound_after history
  have hreach : ∀ o ∈ [bare, a], ¬s.Reaches o.id 1000 := fun o ho =>
    mt (Store.treesTooDeep_iff hs o.id).mpr (Bool.eq_false_iff.mp (hshallow o ho))
  have hreachOwner : ¬s.Reaches b.id 999 :=
    mt (goesTooDeep_owner_iff hs b.id).mpr (Bool.eq_false_iff.mp hshallowOwner)
  refine ⟨?_, hrows, (htogether ⟨1, "d"⟩ names _ horder).1 hreach,
    toOption_eq_some_iff.mp hsummaries, ?_⟩
  · rw [← hroots]
    exact (hclear a _ hroot).1 (hreach a (by simp))
  · rw [← howners, ← hlocks]
    exact (hremove b hthere).1 hreachOwner

/-- An owner with a tree of 1001 levels is not emptied: the write that should do it is
refused, and no row is gone. -/
theorem owner_not_emptied :
    let s := Store.empty.after (branchHistory 1000)
    Write.deleteAll.Clears
      ∧ s.write .readWrite branchOwner .deleteAll = (s, .error (.engine .deepCascade))
      ∧ ∃ r ∈ (s.write .readWrite branchOwner .deleteAll).1.rows, r.owner = branchOwner.id := by
  intro s
  obtain ⟨a, r, howner, hdescends⟩ := descends_after_branchHistory 1000
  have hrefused := write_of_clears_of_deep (sound_after (branchHistory 1000)) (w := .deleteAll)
    trivial ⟨a, r, howner, hdescends⟩
  refine ⟨trivial, hrefused, a, ?_, howner⟩
  rw [hrefused]
  exact hdescends.mem_top

end DataTree
