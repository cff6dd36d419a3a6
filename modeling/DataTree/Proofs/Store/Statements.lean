import DataTree.Proofs.Path.Filters
import DataTree.Store.Select
import Mathlib.Data.List.Forall2

/-!
# How deep statements nest

An expression that is joined from many parts nests as deep as it has parts, and one level
deeper at each.  So a query is refused for the number of its conditions, whatever they are:
some hundreds always pass, and a thousand never do.  Between these bounds it depends on the
other expressions of the statement, and so on the owners that the query covers.

## Main definitions

* `Shape.Within` — an expression that nests no deeper than another.

## Main results

* `fits_none_of_length`, `fits_of_length` — queries that are always taken.
* `not_fits_of_length`, `not_fits_some_of_length` — queries that never are.
* `fits_of_within` — a query is taken if one is that nests no less deep.
* `fits_owners`, `fits_of_axis` — so it is for some owners of a dataspace if it is for all,
  and without its ancestor axis if it is with it.
-/

namespace DataTree

open DataTree.Path

namespace Shape

variable {a b c d e x : Shape} {as bs es : List Shape}

theorem fits_iff : e.fits = true ↔ e.depth + e.reach ≤ 1000 := decide_eq_true_iff

/-! ## Shapes that nest no deeper -/

/-- Whether an expression nests no deeper than another, and neither do its rows. -/
def Within (a b : Shape) : Prop := a.depth ≤ b.depth ∧ a.reach ≤ b.reach

namespace Within

theorem refl (a : Shape) : a.Within a := ⟨Nat.le_refl _, Nat.le_refl _⟩

theorem both (h : a.Within c) (h' : b.Within d) : (Shape.both a b).Within (.both c d) := by
  obtain ⟨hdepth, hreach⟩ := h
  obtain ⟨hdepth', hreach'⟩ := h'
  constructor
  · rw [depth, depth]
    omega
  · rw [reach, reach]
    omega

theorem rows (h : a.Within b) : (Shape.rows a).Within (.rows b) := by
  obtain ⟨hdepth, hreach⟩ := h
  refine ⟨hdepth, ?_⟩
  rw [reach, reach]
  omega

theorem joined (h : a.Within b) (hs : List.Forall₂ Within as bs) :
    (Shape.joined a as).Within (.joined b bs) := by
  induction hs generalizing a b with
  | nil => exact h
  | cons hhead _ ih => exact ih (h.both hhead)

theorem fits (h : a.Within b) (hb : b.fits = true) : a.fits = true := by
  obtain ⟨hdepth, hreach⟩ := h
  rw [fits_iff] at hb ⊢
  omega

end Within

/-! ## Joined expressions -/

theorem joined_cons (a b : Shape) (es : List Shape) : joined a (b :: es) = joined (both a b) es :=
  rfl

/-- Joining nests one level deeper at each part. -/
theorem depth_joined_le {n : Nat} (h : a.depth ≤ n) (hs : ∀ e ∈ es, e.depth ≤ n) :
    (joined a es).depth ≤ n + es.length := by
  induction es generalizing a n with
  | nil => exact h
  | cons e es ih =>
      have he := hs e List.mem_cons_self
      have hboth : (both a e).depth ≤ n + 1 := by
        rw [depth]
        omega
      have hrest := ih hboth fun f hf =>
        Nat.le_succ_of_le (hs f (List.mem_cons_of_mem e hf))
      rw [joined_cons, List.length_cons]
      omega

theorem reach_joined_le {n : Nat} (h : a.reach ≤ n) (hs : ∀ e ∈ es, e.reach ≤ n) :
    (joined a es).reach ≤ n := by
  induction es generalizing a with
  | nil => exact h
  | cons e es ih =>
      have he := hs e List.mem_cons_self
      refine ih ?_ fun f hf => hs f (List.mem_cons_of_mem e hf)
      rw [reach]
      omega

/-- If no part nests deeper than the first one, only their number matters. -/
theorem depth_joined (hs : ∀ e ∈ es, e.depth ≤ a.depth) :
    (joined a es).depth = a.depth + es.length := by
  induction es generalizing a with
  | nil => rfl
  | cons e es ih =>
      have he := hs e List.mem_cons_self
      have hboth : (both a e).depth = a.depth + 1 := by
        rw [depth, Nat.max_eq_left he]
      rw [joined_cons, ih (fun f hf => ?_), hboth, List.length_cons]
      · omega
      · have hf := hs f (List.mem_cons_of_mem e hf)
        omega

/-- What is joined nests deeper than its first part, by the number of others. -/
theorem depth_add_length_le (a : Shape) (es : List Shape) :
    a.depth + es.length ≤ (joined a es).depth := by
  induction es generalizing a with
  | nil => exact Nat.le_refl _
  | cons e es ih =>
      have hrest := ih (both a e)
      have hboth : a.depth + 1 ≤ (both a e).depth := by
        rw [depth]
        omega
      rw [joined_cons, List.length_cons]
      omega

/-- What is joined nests deeper than each of its parts. -/
theorem depth_le_joined (hx : x ∈ es) : x.depth < (joined a es).depth := by
  induction es generalizing a with
  | nil => cases hx
  | cons e es ih =>
      rcases List.mem_cons.mp hx with rfl | hx
      · have hfirst := depth_add_length_le (both a x) es
        rw [depth] at hfirst
        rw [joined_cons]
        omega
      · exact ih hx

end Shape

/-! ## Conditions -/

open Shape

theorem Path.Condition.shape_bounds (c : Condition) :
    c.shape.depth ≤ 9 ∧ c.shape.reach = 0 := by
  obtain ⟨leaf, comparison, value⟩ := c
  cases value with
  | integer n => exact ⟨Nat.le_refl 9, rfl⟩
  | text s => exact ⟨show 6 ≤ 9 by decide, rfl⟩

namespace Path.ConditionGroup

variable (g : ConditionGroup)

theorem length_lt_depth : g.rest.length < g.shape.depth := by
  have hjoined := depth_add_length_le g.first.shape (g.rest.map fun c => c.2.shape)
  have hfirst : 0 < g.first.shape.depth := Nat.succ_pos _
  rw [List.length_map] at hjoined
  rw [shape]
  omega

theorem depth_le : g.shape.depth ≤ g.rest.length + 9 := by
  have hothers : ∀ e ∈ g.rest.map fun c => c.2.shape, e.depth ≤ 9 := by
    intro e he
    obtain ⟨c, -, rfl⟩ := List.mem_map.mp he
    exact c.2.shape_bounds.1
  have hjoined := depth_joined_le g.first.shape_bounds.1 hothers
  rw [List.length_map] at hjoined
  rw [shape]
  omega

theorem reach_eq : g.shape.reach = 0 := by
  refine Nat.le_zero.mp (reach_joined_le (Nat.le_of_eq g.first.shape_bounds.2) fun e he => ?_)
  obtain ⟨c, -, rfl⟩ := List.mem_map.mp he
  exact Nat.le_of_eq c.2.shape_bounds.2

end Path.ConditionGroup

/-! ## Rows -/

namespace Path.Query

variable (q : Query) (scope : Scope)

theorem scope_bounds : scope.shape.depth ≤ 4 ∧ scope.shape.reach ≤ 3 := by
  cases scope with
  | owner id => exact ⟨show 3 ≤ 4 by decide, show 0 ≤ 3 by decide⟩
  | dataspace id => exact ⟨Nat.le_refl 4, Nat.le_refl 3⟩
  | owners ids => exact ⟨show 3 ≤ 4 by decide, show 1 ≤ 3 by decide⟩

theorem parent_bounds (parent : String) :
    (scope.parentShape parent).depth ≤ 6 ∧ (scope.parentShape parent).reach ≤ 4 := by
  unfold Scope.parentShape
  split
  · exact ⟨show 3 ≤ 6 by decide, show 0 ≤ 4 by decide⟩
  · cases scope with
    | owner id => exact ⟨Nat.le_refl 6, Nat.le_refl 4⟩
    | dataspace id => exact ⟨show 4 ≤ 6 by decide, show 3 ≤ 4 by decide⟩
    | owners ids => exact ⟨show 4 ≤ 6 by decide, show 3 ≤ 4 by decide⟩

theorem item_bounds (t : LeafText) : t.itemShape.depth ≤ 6 ∧ t.itemShape.reach ≤ 5 := by
  rw [LeafText.itemShape]
  split
  · exact ⟨Nat.le_refl 6, Nat.le_refl 5⟩
  · exact ⟨Nat.le_refl 6, Nat.le_refl 5⟩

/-- The conditions of a query are one of its clauses. -/
theorem length_conditionList_le {e : Shape}
    (he : e ∈ (q.conditions.map ConditionGroup.shape).toList) :
    q.conditionList.length ≤ e.depth ∧ e.depth ≤ q.conditionList.length + 8
      ∧ e.reach = 0 := by
  rw [conditionList]
  cases hconditions : q.conditions with
  | none =>
      rw [hconditions] at he
      cases he
  | some g =>
      rw [hconditions] at he
      rw [List.mem_singleton.mp he]
      have hlength := g.length_lt_depth
      have hle := g.depth_le
      refine ⟨?_, ?_, g.reach_eq⟩
      · simpa [Nat.succ_le_iff] using hlength
      · simpa using by omega

/-- Each clause nests as deep as the conditions, or not deep at all. -/
theorem clause_bounds {e : Shape} (he : e ∈ q.clauses scope) :
    e.depth ≤ q.conditionList.length + 9 ∧ e.reach ≤ 5 := by
  simp only [clauses, List.mem_cons, List.mem_append] at he
  rcases he with rfl | ((he | he) | he) | he
  · exact ⟨Nat.le_add_left_of_le (show 3 ≤ 9 by decide), show 0 ≤ 5 by decide⟩
  · split at he
    · rw [List.mem_singleton.mp he]
      have hparent := parent_bounds scope q.parentAddress
      omega
    · cases he
  · have hgroup := q.length_conditionList_le he
    omega
  · obtain ⟨t, -, rfl⟩ := Option.map_eq_some_iff.mp (Option.mem_toList.mp he)
    have hitem := item_bounds t
    omega
  · obtain ⟨t, -, rfl⟩ := Option.map_eq_some_iff.mp (Option.mem_toList.mp he)
    exact ⟨Nat.le_add_left_of_le (show 6 ≤ 9 by decide), show 0 ≤ 5 by decide⟩

theorem length_clauses_le : (q.clauses scope).length ≤ 5 := by
  have hlength : ∀ {α : Type} (o : Option α), o.toList.length ≤ 1 := by
    intro α o
    cases o <;> simp
  have hparent : (if q.isAbsolute then [scope.parentShape q.parentAddress] else []).length ≤ 1 := by
    split <;> simp
  have hconditions := hlength (q.conditions.map ConditionGroup.shape)
  have htext := hlength (q.leafText.map LeafText.itemShape)
  have hcontains := hlength (q.contains.map LeafText.placeShape)
  simp only [clauses, List.length_cons, List.length_append]
  omega

theorem rowShape_bounds : (q.rowShape scope).depth ≤ q.conditionList.length + 14
    ∧ (q.rowShape scope).reach ≤ 5 := by
  have hscope := scope_bounds scope
  have hlength := q.length_clauses_le scope
  have hdepth : (q.rowShape scope).depth
      ≤ q.conditionList.length + 9 + (q.clauses scope).length :=
    depth_joined_le (by omega) fun e he => (q.clause_bounds scope he).1
  have hreach : (q.rowShape scope).reach ≤ 5 :=
    reach_joined_le (by omega) fun e he => (q.clause_bounds scope he).2
  omega

/-- What the last step asks for is joined last. -/
theorem rowShape_filteredBy (conditions : Option ConditionGroup) (contains : Option LeafText) :
    (q.filteredBy conditions contains).rowShape scope
      = joined ((q.filteredBy none none).rowShape scope)
        ((conditions.map ConditionGroup.shape).toList
          ++ (contains.map LeafText.placeShape).toList) := by
  have hclauses : (q.filteredBy conditions contains).clauses scope
      = (q.filteredBy none none).clauses scope
        ++ ((conditions.map ConditionGroup.shape).toList
          ++ (contains.map LeafText.placeShape).toList) := by
    show pathShape :: (_ ++ _ ++ [] ++ _) = pathShape :: (_ ++ [] ++ [] ++ []) ++ _
    simp only [List.append_nil, List.append_assoc, List.cons_append]
    rfl
  rw [rowShape, rowShape, hclauses, joined, joined, List.foldl_append]
  rfl

end Path.Query

/-! ## Statements -/

section

variable {q q' : Query} {ancestor : Option Query} {scope scope' : Scope}

theorem fits_none_iff : (⟨q, none⟩ : Selector).fits scope = true
    ↔ (q.rowShape scope).depth + (q.rowShape scope).reach ≤ 1000 := by
  rw [← fits_iff]
  simp [Selector.fits, Query.statement]

/-- With an ancestor axis the rows to begin at count twice. -/
theorem fits_some_iff {a : Query} : (⟨q, some a⟩ : Selector).fits scope = true
    ↔ (both column (rows (q.rowShape scope))).fits = true
      ∧ (joined pathShape (a.conditions.map ConditionGroup.shape).toList).fits = true := by
  have hstop : (wrap pathShape).fits = true := by decide
  simp [Selector.fits, Query.statement, hstop]

/-- A query without an axis is taken with nine hundred conditions and some. -/
theorem fits_none_of_length (h : q.conditionList.length ≤ 980) (scope : Scope) :
    (⟨q, none⟩ : Selector).fits scope = true := by
  have hrows := q.rowShape_bounds scope
  rw [fits_none_iff]
  omega

/-- A query is taken with some hundreds of conditions, and as many of its axis. -/
theorem fits_of_length (h : q.conditionList.length ≤ 480)
    (hancestor : ∀ a, ancestor = some a → a.conditionList.length ≤ 480) (scope : Scope) :
    (⟨q, ancestor⟩ : Selector).fits scope = true := by
  cases ancestor with
  | none => exact fits_none_of_length (by omega) scope
  | some a =>
      have hrows := q.rowShape_bounds scope
      have ha := hancestor a rfl
      rw [fits_some_iff, fits_iff, fits_iff]
      constructor
      · have hcolumn : column.depth = 2 ∧ column.reach = 0 := ⟨rfl, rfl⟩
        rw [depth, depth, Shape.reach, Shape.reach]
        omega
      · have htarget : (joined pathShape (a.conditions.map ConditionGroup.shape).toList).depth
            ≤ 490 + (a.conditions.map ConditionGroup.shape).toList.length :=
          depth_joined_le (show 3 ≤ 490 by decide) fun e he => by
            have hgroup := a.length_conditionList_le he
            omega
        have hreach : (joined pathShape (a.conditions.map ConditionGroup.shape).toList).reach ≤ 0 :=
          reach_joined_le (Nat.le_refl 0) fun e he =>
            Nat.le_of_eq (a.length_conditionList_le he).2.2
        have hlength : (a.conditions.map ConditionGroup.shape).toList.length ≤ 1 := by
          cases a.conditions <;> simp
        omega

/-- Each condition of a query takes a level of it. -/
theorem length_lt_depth_rowShape (q : Query) (scope : Scope) (h : 0 < q.conditionList.length) :
    q.conditionList.length < (q.rowShape scope).depth := by
  cases hconditions : q.conditions with
  | none =>
      rw [Query.conditionList, hconditions] at h
      cases h
  | some g =>
      have hmem : g.shape ∈ (q.conditions.map ConditionGroup.shape).toList := by
        rw [hconditions]
        exact List.mem_singleton_self _
      have hclause : g.shape ∈ q.clauses scope := by
        simp only [Query.clauses, List.mem_cons, List.mem_append]
        exact .inr (.inl (.inl (.inr hmem)))
      have hgroup := (q.length_conditionList_le hmem).1
      have hjoined : g.shape.depth < (q.rowShape scope).depth := depth_le_joined hclause
      omega

/-- With an axis half as many conditions are too many. -/
theorem not_fits_some_of_length {a : Query} (h : 500 ≤ q.conditionList.length) (scope : Scope) :
    (⟨q, some a⟩ : Selector).fits scope = false := by
  have hdepth := length_lt_depth_rowShape q scope (by omega)
  rw [Bool.eq_false_iff]
  intro hfits
  have hrows := (fits_some_iff.mp hfits).1
  rw [fits_iff, depth, depth, Shape.reach, Shape.reach] at hrows
  omega

/-- A query with a thousand conditions is never taken. -/
theorem not_fits_of_length (h : 1000 ≤ q.conditionList.length) (ancestor : Option Query)
    (scope : Scope) : (⟨q, ancestor⟩ : Selector).fits scope = false := by
  cases ancestor with
  | none =>
      have hdepth := length_lt_depth_rowShape q scope (by omega)
      rw [Bool.eq_false_iff]
      intro hfits
      rw [fits_none_iff] at hfits
      omega
  | some a => exact not_fits_some_of_length (by omega) scope

/-- A query is taken if one is whose rows take no less. -/
theorem fits_of_within (h : (q'.rowShape scope').Within (q.rowShape scope))
    (hfits : (⟨q, ancestor⟩ : Selector).fits scope = true) :
    (⟨q', ancestor⟩ : Selector).fits scope' = true := by
  cases ancestor with
  | none =>
      rw [fits_none_iff, ← fits_iff] at hfits ⊢
      exact h.fits hfits
  | some a =>
      rw [fits_some_iff] at hfits ⊢
      exact ⟨((Within.refl column).both h.rows).fits hfits.1, hfits.2⟩

/-- A query that is taken for all owners of a dataspace is for some of them. -/
theorem fits_owners {id : Nat} {ids : List Nat}
    (h : (⟨q, ancestor⟩ : Selector).fits (.dataspace id) = true) :
    (⟨q, ancestor⟩ : Selector).fits (.owners ids) = true := by
  have hscope : (Scope.owners ids).shape.Within (Scope.dataspace id).shape :=
    (Within.refl column).both ⟨show 1 ≤ 3 by decide, show 1 ≤ 3 by decide⟩
  exact fits_of_within (hscope.joined (List.forall₂_same.mpr fun _ _ => .refl _)) h

/-- A query that is taken with its ancestor axis is without. -/
theorem fits_of_axis {a : Query} (h : (⟨q, some a⟩ : Selector).fits scope = true) :
    (⟨q, none⟩ : Selector).fits scope = true := by
  have hfits := (fits_some_iff.mp h).1
  rw [fits_iff, depth, depth, Shape.reach, Shape.reach] at hfits
  rw [fits_none_iff]
  omega

end

end DataTree
