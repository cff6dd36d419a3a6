import DataTree.Proofs.Store.Plan
import DataTree.Proofs.Store.Planted

/-!
# Plans that were carried out

A write that succeeds has carried out its whole plan: first the removals and
updates, after which the old rows can be traced, and then the insertions,
which only append.

## Main definitions

* `Enacted` — a store after all edits of a plan.
* `Confined` — a plan about some subtrees and drafts only.

## Main results

* `enacted_of_inTurn`, `enacted_of_commit` — a plan all of whose edits were done,
  and one whose write succeeds, were carried out.
* `summary_of_commit` — the edits of such a write were counted.
* `Enacted.mem_of_outside`, `Enacted.mem_or_below` — what a plan leaves
  alone that is confined to some subtrees, and where the rest lies.
-/

namespace DataTree

/-- A store `s'` after all the edits `es` that were planned against `s`. -/
structure Enacted (owner : Nat) (s : Store) (es : List Edit) (s' : Store) : Prop where
  before : s.Sound
  traces : Traces s es s'
  planted : Planted owner s es s'

/-! ## All edits, in any order -/

theorem Traces.perm {s t : Store} {done done' : List Edit} (h : Traces s done t)
    (hperm : done.Perm done') : Traces s done' t where
  sound := h.sound
  last := h.last
  rows := h.rows
  stays := fun r hr => (h.stays r hr).trans
    ⟨fun hall d hd => hall d (hperm.mem_iff.mpr hd), fun hall d hd => hall d (hperm.mem_iff.mp hd)⟩
  leaves := by
    intro r hr r' hr' hid
    rcases h.leaves r hr r' hr' hid with ⟨heq, hnone⟩ | ⟨d, hd, hupdates⟩
    · exact .inl ⟨heq, fun d hd => hnone d (hperm.mem_iff.mpr hd)⟩
    · exact .inr ⟨d, hperm.mem_iff.mp hd, hupdates⟩
  unspoiled := fun r hr r' hr' hid heq d hd =>
    h.unspoiled r hr r' hr' hid heq d (hperm.mem_iff.mpr hd)

theorem Planted.perm {owner : Nat} {s t : Store} {done done' : List Edit}
    (h : Planted owner s done t) (hperm : done.Perm done') : Planted owner s done' t where
  top := fun parent d hd => h.top parent d (hperm.mem_iff.mpr hd)
  new := by
    intro r hr hnew
    rcases h.new r hr hnew with hbelow | ⟨d, hd, hpath⟩
    · exact .inl hbelow
    · exact .inr ⟨d, hperm.mem_iff.mp hd, hpath⟩
  distinct := ((hperm.filterMap Edit.newPath?).nodup_iff).mp h.distinct

/-- Removals and updates use no ids. -/
theorem lastRow_inTurn {owner : Nat} {edits : List Edit} (s : Store)
    (h : ∀ e ∈ edits, e.isInsert = false) : (inTurn owner edits s).store.lastRow = s.lastRow := by
  induction edits generalizing s with
  | nil => rfl
  | cons e rest ih =>
      have hrest := fun f hf => h f (List.mem_cons_of_mem e hf)
      cases hconflict : e.conflict? owner s with
      | some conflict =>
          rw [inTurn_cons_of_conflict hconflict]
          exact ih s hrest
      | none =>
          rw [inTurn_cons_of_free hconflict]
          have hsame : (e.effect owner s).lastRow = s.lastRow := by
            cases e with
            | remove id path => rfl
            | update id path expected attributes => rfl
            | insert parent d => cases h _ List.mem_cons_self
          exact (ih _ hrest).trans hsame

/-- Edits touch no table but that of the rows. -/
theorem inTurn_store_eq (owner : Nat) (edits : List Edit) (s : Store) :
    (inTurn owner edits s).store
      = { s with
          rows := (inTurn owner edits s).store.rows
          lastRow := (inTurn owner edits s).store.lastRow } := by
  induction edits generalizing s with
  | nil => rfl
  | cons e rest ih =>
      cases hconflict : e.conflict? owner s with
      | some conflict =>
          rw [inTurn_cons_of_conflict hconflict]
          exact ih s
      | none =>
          rw [inTurn_cons_of_free hconflict]
          have hrest := ih (e.effect owner s)
          cases e with
          | remove id path => exact hrest
          | update id path expected attributes => exact hrest
          | insert parent d => exact hrest

/-! ## Writes that succeed -/

section

variable {s s' : Store} {owner : Owner} {es : List Edit} {summary : Summary}

/-- A write that succeeds skips no edit. -/
theorem inTurn_of_commit (h : Change.commit s owner (.edits es) = (s', .ok summary)) :
    Unfaulted owner.id (inOrder es) s ∧ (inTurn owner.id (inOrder es) s).skipped = []
      ∧ s' = (inTurn owner.id (inOrder es) s).store := by
  have hstore : (applyWithFallback owner.id es s).1 = s' := congrArg Prod.fst h
  have hanswer : Change.answer owner (applyWithFallback owner.id es s).2 = .ok summary :=
    congrArg Prod.snd h
  have hunfaulted : Unfaulted owner.id (inOrder es) s := by
    cases happlied : (applyWithFallback owner.id es s).2 with
    | ok applied => exact unfaulted_iff.mpr ⟨applied, happlied⟩
    | error fault =>
        rw [happlied] at hanswer
        cases hanswer
  rw [applyWithFallback_eq hunfaulted] at hstore hanswer
  refine ⟨hunfaulted, ?_, hstore.symm⟩
  by_contra hskipped
  rw [Applied.of_ofList hskipped, Change.answer, Applied.answer] at hanswer
  split at hanswer <;> cases hanswer

/-- A write that succeeds counts the edits it has done. -/
theorem summary_of_commit (h : Change.commit s owner (.edits es) = (s', .ok summary)) :
    summary = counts (inTurn owner.id (inOrder es) s).done := by
  obtain ⟨hunfaulted, hnone, -⟩ := inTurn_of_commit h
  have hanswer : Change.answer owner (applyWithFallback owner.id es s).2 = .ok summary :=
    congrArg Prod.snd h
  rw [applyWithFallback_eq hunfaulted, hnone] at hanswer
  cases hanswer
  rfl

/-- A plan of which every edit was done is carried out, if what it inserts are
drafts of leaves without doubles. -/
theorem enacted_of_inTurn {owner : Nat} (hs : s.Sound) (hplanned : ∀ e ∈ es, e.Planned owner s)
    (hexact : ∀ parent d, Edit.insert parent d ∈ es → d.Exact)
    (hunfaulted : Unfaulted owner (inOrder es) s)
    (hnone : (inTurn owner (inOrder es) s).skipped = []) :
    Enacted owner s es (inTurn owner (inOrder es) s).store := by
  obtain ⟨front, hfront, horder⟩ := inOrder_eq es
  have hperm : ((es.filter Edit.isInsert).reverse ++ (front.reverse ++ [])).Perm es := by
    rw [List.append_nil, ← List.reverse_append, ← horder]
    exact (List.reverse_perm _).trans (inOrder_perm es)
  rw [horder, unfaulted_append] at hunfaulted
  rw [horder, inTurn_append] at hnone
  obtain ⟨hnoneFront, hnoneInserts⟩ := List.append_eq_nil_iff.mp hnone
  have hplannedFront : ∀ e ∈ front, e.Planned owner s := fun e he =>
    hplanned e (mem_inOrder.mp (by rw [horder]; exact List.mem_append_left _ he))
  have hplannedInserts : ∀ e ∈ es.filter Edit.isInsert, e.Planned owner s := fun e he =>
    hplanned e (List.mem_filter.mp he).1
  have hinserts : ∀ e ∈ es.filter Edit.isInsert, ∃ parent d, e = .insert parent d ∧ d.Exact := by
    intro e he
    obtain ⟨he, hkind⟩ := List.mem_filter.mp he
    cases e with
    | remove id path => cases hkind
    | update id path expected attributes => cases hkind
    | insert parent d => exact ⟨parent, d, rfl, hexact parent d he⟩
  have hmid := traces_inTurn hs (.start hs) hplannedFront hunfaulted.1 hnoneFront
  have hdone : ∀ e ∈ front.reverse ++ [], e.isInsert = false := by
    intro e he
    rw [List.append_nil, List.mem_reverse] at he
    exact hfront e he
  have hplanted : Planted owner s (front.reverse ++ []) (inTurn owner front s).store :=
    .of_not_insert hdone hmid.sound (lastRow_inTurn s hfront)
  rw [horder, inTurn_append]
  exact {
    before := hs
    traces := (traces_inTurn hs hmid hplannedInserts hunfaulted.2 hnoneInserts).perm hperm
    planted := (planted_inTurn hs hmid hplanted hinserts hplannedInserts hunfaulted.2
      hnoneInserts).perm hperm }

/-- So is a plan whose write succeeds. -/
theorem enacted_of_commit (hs : s.Sound) (hplanned : ∀ e ∈ es, e.Planned owner.id s)
    (hexact : ∀ parent d, Edit.insert parent d ∈ es → d.Exact)
    (h : Change.commit s owner (.edits es) = (s', .ok summary)) :
    Enacted owner.id s es s' := by
  obtain ⟨hunfaulted, hnone, rfl⟩ := inTurn_of_commit h
  exact enacted_of_inTurn hs hplanned hexact hunfaulted hnone

end

/-! ## Rows of a plan afterwards -/

namespace Enacted

variable {owner : Nat} {s s' : Store} {es : List Edit}

/-- A row that no edit removes is there afterwards, perhaps with other
leaves. -/
theorem exists_row (h : Enacted owner s es s') {r : Row} (hr : r ∈ s.rows)
    (hkept : ∀ e ∈ es, ¬e.Removes s.rows r) :
    ∃ r' ∈ s'.rows, r' = { r with attributes := r'.attributes } := by
  obtain ⟨r', hr', hid⟩ := Store.hasRow_iff.mp ((h.traces.stays r hr).mpr hkept)
  exact ⟨r', hr', h.traces.eq_of_id h.before hr hr' hid⟩

/-- An inserted draft has a path of its own. -/
theorem path_ne_of_insert (h : Enacted owner s es s') {parent : Option Nat} {d : Draft}
    (hd : Edit.insert parent d ∈ es) {r : Row} (hr : r ∈ s'.rows) (hold : r.id ≤ s.lastRow)
    (howner : r.owner = owner) : d.path ≠ r.path := by
  intro hpath
  obtain ⟨q, hq, hid, hqowner, -, hqpath, -⟩ := h.planted.top parent d hd
  have heq : q = r := h.traces.sound.eq_of_path hq hr (hqowner.trans howner.symm)
    (hqpath.trans hpath)
  rw [heq] at hid
  omega

end Enacted

/-! ## Rows elsewhere -/

/-- Whether each edit of a plan is about a row at or below one of `tops`, or
inserts one of the drafts `news` under a parent. -/
def Confined (s : Store) (tops : Row → Prop) (parent : Option Nat) (news : Draft → Prop)
    (es : List Edit) : Prop :=
  ∀ e ∈ es, (∃ t, tops t ∧ e.Inside s.rows t) ∨ ∃ d, news d ∧ e = .insert parent d

namespace Enacted

variable {owner : Nat} {s s' : Store} {es : List Edit}
variable {tops : Row → Prop} {parent : Option Nat} {news : Draft → Prop}

/-- A row that is not at or below one of them is not touched. -/
theorem mem_of_outside (h : Enacted owner s es s') (hes : Confined s tops parent news es) {r : Row}
    (hr : r ∈ s.rows) (hout : ∀ t, tops t → ¬AtOrBelow s.rows t r) : r ∈ s'.rows := by
  have hs := h.before
  have hkept : ∀ e ∈ es, ¬e.Removes s.rows r := by
    rintro e he ⟨a, ha, path, rfl⟩
    rcases hes _ he with ⟨t, ht, x, hx, hplace⟩ | ⟨d, -, hinsert⟩
    · rw [← hs.eq_of_id ha.mem_top hx.mem (Option.some.inj hplace)] at hx
      exact hout t ht (hx.trans ha)
    · cases hinsert
  obtain ⟨r', hr', heq⟩ := h.exists_row hr hkept
  have hid : r'.id = r.id := by rw [heq]
  rcases h.traces.leaves r hr r' hr' hid with ⟨hsame, -⟩ | ⟨e, he, path, expected, rfl⟩
  · rw [hsame] at heq
    have hsame : r' = r := heq
    exact hsame ▸ hr'
  · rcases hes _ he with ⟨t, ht, x, hx, hplace⟩ | ⟨d, -, hinsert⟩
    · rw [← hs.eq_of_id hr hx.mem (Option.some.inj hplace)] at hx
      exact absurd hx (hout t ht)
    · cases hinsert

/-- What is new or changed lies at or below one of them, or a draft inserted. -/
theorem mem_or_below (h : Enacted owner s es s') (hes : Confined s tops parent news es) {r' : Row}
    (hr' : r' ∈ s'.rows) :
    r' ∈ s.rows ∨ ∃ t', AtOrBelow s'.rows t' r' ∧ ((∃ t, tops t ∧ t'.id = t.id)
      ∨ t'.owner = owner ∧ t'.parent = parent ∧ ∃ d, news d ∧ t'.path = d.path) := by
  have hs := h.before
  -- a new row hangs under an earlier one, so the induction is on its id
  induction hid : r'.id using Nat.strongRecOn generalizing r' with
  | ind n ih =>
      by_cases hold : r'.id ≤ s.lastRow
      · obtain ⟨r, hr, heq⟩ := h.traces.rows r' hr' hold
        have hrid : r'.id = r.id := by rw [heq]
        by_cases hout : ∀ t, tops t → ¬AtOrBelow s.rows t r
        · have hmem := h.mem_of_outside hes hr hout
          rw [h.traces.sound.eq_of_id hr' hmem hrid]
          exact .inl hr
        · simp only [not_forall, not_not] at hout
          obtain ⟨t, ht, hbelow⟩ := hout
          obtain ⟨t', ht', htid⟩ := h.traces.above_after hs hbelow hr' hrid
          exact .inr ⟨t', ht', .inl ⟨t, ht, htid⟩⟩
      · have hparent : ∀ {g}, r'.parent = some g → ∃ x ∈ s'.rows, x.id = g ∧ x.id < r'.id := by
          intro g hg
          obtain ⟨x, hx, hxid, hlt, -⟩ := h.traces.sound.linked r' hr' g hg
          exact ⟨x, hx, hxid, hlt⟩
        rcases h.planted.new r' hr' (by omega) with ⟨g, hg, hnew⟩ | ⟨d, hd, hpath, howner⟩
        · obtain ⟨x, hx, rfl, hlt⟩ := hparent hg
          rcases ih x.id (hid ▸ hlt) hx rfl with hx' | ⟨t', ht', htop⟩
          · have := hs.fresh x hx'
            omega
          · exact .inr ⟨t', ht'.step hr' hg, htop⟩
        · rcases hes _ hd with ⟨t, ht, y, hy, hplace⟩ | ⟨c, hc, heq⟩
          · obtain ⟨x, hx, hxid, -⟩ := hparent hplace
            obtain ⟨t', ht', htid⟩ := h.traces.above_after hs hy hx hxid
            exact .inr ⟨t', ht'.step hr' (by rw [hxid]; exact hplace), .inl ⟨t, ht, htid⟩⟩
          · cases heq
            exact .inr ⟨r', .self hr', .inr ⟨howner, rfl, d, hc, hpath⟩⟩

end Enacted

end DataTree
