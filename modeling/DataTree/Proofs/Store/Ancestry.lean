import DataTree.Store.Tables
import Mathlib.Data.List.Nodup
import Mathlib.Data.List.Sort

/-!
# Rows at and below a row

Removing a row removes everything below it, and one pass over the rows has
to find all of it.  It does because ids grow along the table and a parent
has a smaller id than its children: when the pass meets a row, the fate of
its parent is decided.

## Main definitions

* `AtOrBelow` — a row and the rows that hang under it, at any depth.
* `Ordered` — ids grow, and parents come first.
* `Falls`, `Topmost` — rows that go with others, and rows that go by
  themselves.

## Main results

* `mem_survivors_iff` — a row stays exactly if nothing at or above it goes.
* `directRemovals_eq` — a removal counts the rows that go by themselves.
-/

namespace DataTree

/-- `AtOrBelow rows top r`: the row `r` is `top` or hangs under it, directly
or through other rows. -/
inductive AtOrBelow (rows : List Row) : Row → Row → Prop where
  | self {r : Row} : r ∈ rows → AtOrBelow rows r r
  | step {top q r : Row} : AtOrBelow rows top q → r ∈ rows → r.parent = some q.id →
      AtOrBelow rows top r

/-- Ids grow along the table, and a parent has a smaller id than its
children. -/
structure Ordered (rows : List Row) : Prop where
  ids : rows.Pairwise fun q r => q.id < r.id
  parents : ∀ r ∈ rows, ∀ p, r.parent = some p → p < r.id

namespace AtOrBelow

variable {rows : List Row} {a b r : Row}

theorem mem (h : AtOrBelow rows a r) : r ∈ rows := by
  cases h with
  | self hr => exact hr
  | step _ hr _ => exact hr

theorem mem_top (h : AtOrBelow rows a r) : a ∈ rows := by
  induction h with
  | self hr => exact hr
  | step _ _ _ ih => exact ih

theorem trans (hab : AtOrBelow rows a b) (hbr : AtOrBelow rows b r) : AtOrBelow rows a r := by
  induction hbr with
  | self _ => exact hab
  | step _ hr hp ih => exact ih.step hr hp

/-- A row below another hangs under a row at or below it. -/
theorem eq_or_step (h : AtOrBelow rows a r) :
    a = r ∨ ∃ q, AtOrBelow rows a q ∧ r.parent = some q.id := by
  cases h with
  | self _ => exact .inl rfl
  | step hq _ hp => exact .inr ⟨_, hq, hp⟩

end AtOrBelow

namespace Ordered

variable {rows : List Row}

/-- No two rows have one id. -/
theorem eq_of_id (h : Ordered rows) {q r : Row} (hq : q ∈ rows) (hr : r ∈ rows)
    (hid : q.id = r.id) : q = r := by
  have hnodup : (rows.map Row.id).Nodup :=
    List.pairwise_map.mpr (h.ids.imp fun hlt => Nat.ne_of_lt hlt)
  exact List.inj_on_of_nodup_map hnodup hq hr hid

/-- Of the rows before and from a place in the table, those with a smaller id
than the row there stand before. -/
theorem mem_left_of_lt {done rest : List Row} {q r : Row} (h : Ordered (done ++ r :: rest))
    (hq : q ∈ done ++ r :: rest) (hlt : q.id < r.id) : q ∈ done := by
  have hright := (List.pairwise_append.mp h.ids).2.1
  rcases List.mem_append.mp hq with hdone | hrest
  · exact hdone
  · rcases List.mem_cons.mp hrest with rfl | hrest
    · exact absurd hlt (Nat.lt_irrefl _)
    · have hgt := (List.pairwise_cons.mp hright).1 q hrest
      omega

end Ordered

/-- Tables in the order of their ids are equal if they have the same rows. -/
theorem eq_of_ids {rows rows' : List Row} (h : rows.Pairwise fun p q => p.id < q.id)
    (h' : rows'.Pairwise fun p q => p.id < q.id) (hmem : ∀ r, r ∈ rows ↔ r ∈ rows') :
    rows = rows' := by
  have hasymm : Std.Antisymm fun p q : Row => p.id < q.id :=
    ⟨fun _ _ hlt hgt => absurd hlt hgt.asymm⟩
  have hirrefl : Std.Irrefl fun p q : Row => p.id < q.id := ⟨fun _ => lt_irrefl _⟩
  exact h.eq_of_mem_iff h' hmem

/-! ## Rows above one row -/

section

variable {rows : List Row} {a b r : Row}

theorem AtOrBelow.le (h : AtOrBelow rows a r) (ho : Ordered rows) : a.id ≤ r.id := by
  induction h with
  | self _ => exact Nat.le_refl _
  | @step q r _ hr hp ih =>
      have := ho.parents r hr q.id hp
      omega

/-- The rows above one row stand above each other. -/
theorem AtOrBelow.linear (ha : AtOrBelow rows a r) (hb : AtOrBelow rows b r)
    (ho : Ordered rows) : AtOrBelow rows a b ∨ AtOrBelow rows b a := by
  induction ha with
  | self _ => exact .inr hb
  | @step q r haq hr hp ih =>
      cases hb with
      | self _ => exact .inl (haq.step hr hp)
      | @step q' _ hbq _ hp' =>
          have hid : q'.id = q.id := Option.some.inj (hp'.symm.trans hp)
          rw [ho.eq_of_id hbq.mem haq.mem hid] at hbq
          exact ih hbq

/-- A row is not below a row that hangs under the same parent. -/
theorem AtOrBelow.eq_of_sibling (h : AtOrBelow rows a b) (ho : Ordered rows)
    (hparent : a.parent = b.parent) : a = b := by
  rcases h.eq_or_step with heq | ⟨q, haq, hq⟩
  · exact heq
  · have hlt := ho.parents a haq.mem_top q.id (hparent.trans hq)
    have hle := haq.le ho
    omega

/-- What is below one of several rows under one parent is below no other. -/
theorem AtOrBelow.eq_of_siblings (ha : AtOrBelow rows a r) (hb : AtOrBelow rows b r)
    (ho : Ordered rows) (hparent : a.parent = b.parent) : a = b := by
  rcases ha.linear hb ho with h | h
  · exact h.eq_of_sibling ho hparent
  · exact (h.eq_of_sibling ho hparent.symm).symm

/-- No row hangs under a row that is below it. -/
theorem AtOrBelow.not_parent (h : AtOrBelow rows a b) (ho : Ordered rows) :
    a.parent ≠ some b.id := by
  intro hp
  have hlt := ho.parents a h.mem_top b.id hp
  have hle := h.le ho
  omega

end

/-! ## What a removal leaves -/

/-- Whether a row goes when the rows with `p` go. -/
def Falls (p : Row → Bool) (rows : List Row) (r : Row) : Prop :=
  ∃ a, AtOrBelow rows a r ∧ p a = true

theorem falls_iff {p : Row → Bool} {rows : List Row} {r : Row} (hr : r ∈ rows) :
    Falls p rows r ↔ p r = true ∨ ∃ q ∈ rows, Falls p rows q ∧ r.parent = some q.id := by
  constructor
  · rintro ⟨a, ha, hp⟩
    rcases ha.eq_or_step with rfl | ⟨q, hq, hparent⟩
    · exact .inl hp
    · exact .inr ⟨q, hq.mem, ⟨a, hq, hp⟩, hparent⟩
  · rintro (hp | ⟨q, -, ⟨a, ha, hp⟩, hparent⟩)
    · exact ⟨r, .self hr, hp⟩
    · exact ⟨a, ha.step hr hparent, hp⟩

/-- Whether a row is to go and hangs under no other row that is. -/
def Topmost (p : Row → Bool) (rows : List Row) (r : Row) : Prop :=
  p r = true ∧ ∀ a, AtOrBelow rows a r → p a = true → a = r

/-- The invariant of the pass over the rows: `gone` holds the ids of the rows
passed so far that fall. -/
def Gone (p : Row → Bool) (all done : List Row) (gone : List Nat) : Prop :=
  ∀ g, g ∈ gone ↔ ∃ q ∈ done, q.id = g ∧ Falls p all q

namespace Gone

variable {p : Row → Bool} {all done rest : List Row} {gone : List Nat} {x : Row}

theorem nil (p : Row → Bool) (all : List Row) : Gone p all [] [] := by
  intro g
  simp

/-- The pass sees whether the parent of the next row falls. -/
theorem hangsUnder_iff (h : Gone p all done gone) (hall : all = done ++ x :: rest)
    (ho : Ordered all) : Store.hangsUnder gone x = true ↔
      ∃ q ∈ all, Falls p all q ∧ x.parent = some q.id := by
  constructor
  · intro hunder
    obtain ⟨g, hparent, hmem⟩ := (Option.any_eq_true ..).mp hunder
    obtain ⟨q, hq, rfl, hfall⟩ := (h g).mp (by simpa using hmem)
    exact ⟨q, by simp [hall, hq], hfall, hparent⟩
  · rintro ⟨q, hq, hfall, hparent⟩
    have hdone : q ∈ done := by
      rw [hall] at ho hq
      exact ho.mem_left_of_lt hq (ho.parents x (by simp) _ hparent)
    have hmem : q.id ∈ gone := (h q.id).mpr ⟨q, hdone, rfl, hfall⟩
    simp [Store.hangsUnder, hparent, hmem]

/-- The pass sees whether the next row falls. -/
theorem falls_iff (h : Gone p all done gone) (hall : all = done ++ x :: rest)
    (ho : Ordered all) : (p x || Store.hangsUnder gone x) = true ↔ Falls p all x := by
  have hx : x ∈ all := by simp [hall]
  rw [DataTree.falls_iff hx, Bool.or_eq_true, h.hangsUnder_iff hall ho]

/-- The pass sees whether the next row goes by itself. -/
theorem topmost_iff (h : Gone p all done gone) (hall : all = done ++ x :: rest)
    (ho : Ordered all) : Topmost p all x ↔ p x = true ∧ ¬Store.hangsUnder gone x = true := by
  have hx : x ∈ all := by simp [hall]
  rw [Topmost]
  apply and_congr_right
  intro _
  rw [h.hangsUnder_iff hall ho]
  constructor
  · rintro htop ⟨q, -, ⟨a, haq, ha⟩, hparent⟩
    have hsame := htop a (haq.step hx hparent) ha
    subst hsame
    exact haq.not_parent ho hparent
  · intro hnone a ha hpa
    rcases ha.eq_or_step with hsame | ⟨q, haq, hparent⟩
    · exact hsame
    · exact absurd ⟨q, haq.mem, ⟨a, haq, hpa⟩, hparent⟩ hnone

theorem fall (h : Gone p all done gone) (hfall : Falls p all x) :
    Gone p all (done ++ [x]) (x.id :: gone) := by
  intro g
  rw [List.mem_cons, h g]
  constructor
  · rintro (rfl | ⟨q, hq, hid, hq'⟩)
    · exact ⟨x, by simp, rfl, hfall⟩
    · exact ⟨q, by simp [hq], hid, hq'⟩
  · rintro ⟨q, hq, rfl, hq'⟩
    rcases List.mem_append.mp hq with hdone | hlast
    · exact .inr ⟨q, hdone, rfl, hq'⟩
    · exact .inl (by rw [List.mem_singleton.mp hlast])

theorem keep (h : Gone p all done gone) (hkeep : ¬Falls p all x) :
    Gone p all (done ++ [x]) gone := by
  intro g
  rw [h g]
  constructor
  · rintro ⟨q, hq, hid, hq'⟩
    exact ⟨q, by simp [hq], hid, hq'⟩
  · rintro ⟨q, hq, hid, hq'⟩
    rcases List.mem_append.mp hq with hdone | hlast
    · exact ⟨q, hdone, hid, hq'⟩
    · rw [List.mem_singleton.mp hlast] at hq'
      exact absurd hq' hkeep

end Gone

namespace Store

private theorem mem_survivors_of_gone {p : Row → Bool} {all done rest : List Row}
    {gone : List Nat} {r : Row} (hall : all = done ++ rest) (h : Ordered all)
    (hgone : Gone p all done gone) :
    r ∈ survivors p gone rest ↔ r ∈ rest ∧ ¬Falls p all r := by
  induction rest generalizing done gone with
  | nil => simp [survivors]
  | cons x rest ih =>
      have hfalls := hgone.falls_iff hall h
      have hall' : all = (done ++ [x]) ++ rest := by simp [hall]
      rw [survivors]
      by_cases hfall : Falls p all x
      · rw [if_pos (hfalls.mpr hfall), ih hall' (hgone.fall hfall), List.mem_cons]
        constructor
        · rintro ⟨hr, hr'⟩
          exact ⟨.inr hr, hr'⟩
        · rintro ⟨rfl | hr, hr'⟩
          · exact absurd hfall hr'
          · exact ⟨hr, hr'⟩
      · rw [if_neg (fun hcond => hfall (hfalls.mp hcond)), List.mem_cons,
          ih hall' (hgone.keep hfall), List.mem_cons]
        constructor
        · rintro (rfl | ⟨hr, hr'⟩)
          · exact ⟨.inl rfl, hfall⟩
          · exact ⟨.inr hr, hr'⟩
        · rintro ⟨rfl | hr, hr'⟩
          · exact .inl rfl
          · exact .inr ⟨hr, hr'⟩

/-- A row stays exactly if no row at or above it was to be removed. -/
theorem mem_survivors_iff {p : Row → Bool} {rows : List Row} (h : Ordered rows) {r : Row} :
    r ∈ survivors p [] rows ↔ r ∈ rows ∧ ¬Falls p rows r :=
  mem_survivors_of_gone rfl h (.nil p rows)

/-- If the rows that fall are those without `q`, the others stay as they are. -/
theorem survivors_eq_filter {p q : Row → Bool} {rows : List Row} (h : Ordered rows)
    (hfalls : ∀ r ∈ rows, Falls p rows r ↔ q r = false) : survivors p [] rows = rows.filter q := by
  have hids := h.ids.sublist (survivors_sublist p [] rows)
  apply eq_of_ids hids (h.ids.filter q)
  intro r
  rw [mem_survivors_iff h, List.mem_filter]
  apply and_congr_right
  intro hr
  rw [hfalls r hr, Bool.not_eq_false]

open scoped Classical in
private theorem directRemovals_of_gone {p : Row → Bool} {all done rest : List Row}
    {gone : List Nat} (hall : all = done ++ rest) (h : Ordered all)
    (hgone : Gone p all done gone) :
    directRemovals p gone rest = rest.countP fun r => Topmost p all r := by
  induction rest generalizing done gone with
  | nil => rfl
  | cons x rest ih =>
      have htop := hgone.topmost_iff hall h
      have hfalls := hgone.falls_iff hall h
      have hall' : all = (done ++ [x]) ++ rest := by simp [hall]
      rw [directRemovals, List.countP_cons]
      by_cases hfall : Falls p all x
      · have hgoes := hfalls.mpr hfall
        by_cases habove : hangsUnder gone x = true
        · simp [habove, htop, ih hall' (hgone.fall hfall)]
        · have hp : p x = true := by simpa [habove] using hgoes
          simp [habove, hp, htop, ih hall' (hgone.fall hfall)]
      · have hstays : p x = false ∧ hangsUnder gone x = false := by
          rwa [← hfalls, Bool.not_eq_true, Bool.or_eq_false_iff] at hfall
        simp [hstays, htop, ih hall' (hgone.keep hfall)]

open scoped Classical in
/-- The rows counted are those to be removed that hang under no other. -/
theorem directRemovals_eq {p : Row → Bool} {rows : List Row} (h : Ordered rows) :
    directRemovals p [] rows = rows.countP fun r => Topmost p rows r :=
  directRemovals_of_gone rfl h (.nil p rows)

end Store

end DataTree
