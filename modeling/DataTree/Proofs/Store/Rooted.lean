import DataTree.Proofs.Store.Apart

/-!
# Insertions whose parents stay

An insertion goes under a row as it was when the write was planned, and the
engine refuses it if an earlier edit of the same write has removed that row.
The edits of one reconciliation never do that to each other: they remove no
row that the draft keeps, and insert only under rows that it keeps.  Nor do
those of several reconciliations, unless one of the rows reconciled is at or
below another.

## Main definitions

* `Edit.Uproots` — one edit removes the row that another inserts under.
* `Rooted` — no edit of a list uproots another.

## Main results

* `updateEdits_rooted` — the edits of rows of which none is at or below
  another are rooted.
* `isRemove_of_untilFault` — of a rooted plan for an owner that is there the
  engine refuses only removals.
-/

namespace DataTree

/-- Whether an edit removes the row that another inserts under. -/
def Edit.Uproots (rows : List Row) (e f : Edit) : Prop :=
  ∃ r ∈ rows, e.Removes rows r ∧ ∃ d, f = .insert (some r.id) d

/-- No edit of a list removes a row that another inserts under. -/
def Rooted (rows : List Row) (edits : List Edit) : Prop :=
  ∀ e ∈ edits, ∀ f ∈ edits, ¬e.Uproots rows f

section

variable {rows : List Row} {e f : Edit} {edits : List Edit} {q x : Row}

theorem Edit.isRemove_of_removes (h : e.Removes rows q) : e.isRemove = true := by
  obtain ⟨top, -, path, rfl⟩ := h
  rfl

/-- Edits that remove nothing are rooted. -/
theorem rooted_of_not_remove (h : ∀ e ∈ edits, e.isRemove = false) : Rooted rows edits := by
  rintro e he f - ⟨r, -, hremoves, -⟩
  have hremove := Edit.isRemove_of_removes hremoves
  rw [h e he] at hremove
  cases hremove

/-- What an edit inside a subtree removes is inside the subtree. -/
theorem Edit.Inside.atOrBelow_of_removes (h : e.Inside rows q) (ho : Ordered rows)
    (hremoves : e.Removes rows x) : AtOrBelow rows q x := by
  obtain ⟨a, ha, path, rfl⟩ := hremoves
  obtain ⟨b, hb, hplace⟩ := h
  have hab : a = b := ho.eq_of_id ha.mem_top hb.mem (Option.some.inj hplace)
  subst hab
  exact hb.trans ha

/-- Edits in subtrees that share no row do not uproot each other. -/
theorem not_uproots_of_inside (ho : Ordered rows) (he : e.Inside rows q) (hf : f.Inside rows x)
    (hdisjoint : ∀ r, AtOrBelow rows q r → ¬AtOrBelow rows x r) : ¬e.Uproots rows f := by
  rintro ⟨r, hr, hremoves, d, rfl⟩
  obtain ⟨b, hb, hplace⟩ := hf
  have hrb : r = b := ho.eq_of_id hr hb.mem (Option.some.inj hplace)
  subst hrb
  exact hdisjoint r (he.atOrBelow_of_removes ho hremoves) hb

/-- An edit below a row does not uproot what is inserted under the row. -/
theorem not_uproots_insert (ho : Ordered rows) {parent : Option Nat} (hparent : q.parent = parent)
    (he : e.Inside rows q) (d : Draft) : ¬e.Uproots rows (.insert parent d) := by
  rintro ⟨r, -, hremoves, d', heq⟩
  cases heq
  exact (he.atOrBelow_of_removes ho hremoves).not_parent ho hparent

theorem not_uproots_of_insert {parent : Option Nat} {d : Draft} :
    ¬(Edit.insert parent d).Uproots rows f := by
  rintro ⟨r, -, hremoves, -⟩
  exact Edit.not_removes_insert hremoves

end

/-! ## One reconciliation -/

section

variable {owner : Nat} {s : Store}

mutual
/-- The edits of one reconciliation are rooted. -/
theorem reconcile_rooted (hs : s.Sound) : (d : Draft) → {r : Row} → {es : List Edit} →
    r ∈ s.rows → r.owner = owner → r.path = d.path → d.Sound →
    reconcile s.rows r d = .ok es → Rooted s.rows es
  | .mk path attributes children, r, es => by
    intro hr howner hpath hd h
    obtain ⟨own, below, hown, hbelow, rfl⟩ := reconcile_eq_ok_iff.mp h
    have hstored : ∀ q ∈ childrenIn s.rows r, q ∈ s.rows ∧ q.owner = owner :=
      fun q hq => ⟨(mem_childrenIn.mp hq).1, (owner_of_child hs hr hq).trans howner⟩
    have hrooted := reconcileChildren_rooted hs children hstored
      (fun q hq => (mem_childrenIn.mp hq).2)
      (fun c hc => ⟨hd.child hc, carries_child hr howner hpath hd hc⟩) hbelow
    intro e he f hf
    rcases List.mem_append.mp he with he | he
    · rw [eq_update_of_mem_leafEdits hown he]
      rintro ⟨x, -, hremoves, -⟩
      exact Edit.not_removes_update hremoves
    · rcases List.mem_append.mp hf with hf | hf
      · rw [eq_update_of_mem_leafEdits hown hf]
        rintro ⟨x, -, -, c, heq⟩
        cases heq
      · exact hrooted e he f hf

theorem reconcileChildren_rooted (hs : s.Sound) : (ds : List Draft) → {parent : Option Nat} →
    {stored : List Row} → {es : List Edit} → (∀ q ∈ stored, q ∈ s.rows ∧ q.owner = owner) →
    (∀ q ∈ stored, q.parent = parent) →
    (∀ d ∈ ds, d.Sound ∧ s.Carries owner parent d.path) →
    reconcileChildren s.rows parent stored ds = .ok es → Rooted s.rows es
  | [], parent, stored, es => by
    intro _ _ _ h
    cases h
    intro e _ f hf
    obtain ⟨q, -, rfl⟩ := eq_remove_of_mem_removeEdits hf
    rintro ⟨r, -, -, d, heq⟩
    cases heq
  | d :: rest, parent, stored, es => by
    intro hstored hparent hds h
    have hstored' : ∀ q ∈ rowsBut stored d.path, q ∈ s.rows ∧ q.owner = owner :=
      fun q hq => hstored q (mem_rowsBut.mp hq).1
    have hparent' : ∀ q ∈ rowsBut stored d.path, q.parent = parent :=
      fun q hq => hparent q (mem_rowsBut.mp hq).1
    have hds' : ∀ c ∈ rest, c.Sound ∧ s.Carries owner parent c.path :=
      fun c hc => hds c (List.mem_cons_of_mem _ hc)
    cases hfind : rowWith? stored d.path with
    | some q =>
        obtain ⟨own, more, hown, hmore, rfl⟩ := (reconcileChildren_cons_of_stored hfind).mp h
        obtain ⟨hq, hpath⟩ := rowWith?_eq_some hfind
        have hd := (hds d List.mem_cons_self).1
        have hrooted := reconcile_rooted hs d (hstored q hq).1 (hstored q hq).2 hpath hd hown
        have hinside : ∀ e ∈ own, e.Inside s.rows q := fun e he =>
          (reconcile_planned hs d (hstored q hq).1 (hstored q hq).2 hpath hd hown e he).2
        have hplace := reconcileChildren_planned hs rest hstored' hds' hmore
        -- no other row under the parent shares a row below with `q`
        have hdisjoint : ∀ x ∈ rowsBut stored d.path, ∀ r, AtOrBelow s.rows q r →
            ¬AtOrBelow s.rows x r := by
          intro x hx r hqr hxr
          have hsame : q = x := hqr.eq_of_siblings hxr hs.ordered
            ((hparent q hq).trans (hparent' x hx).symm)
          exact (mem_rowsBut.mp hx).2 (hsame ▸ hpath)
        intro e he f hf
        rcases List.mem_append.mp he with he | he
        · rcases List.mem_append.mp hf with hf | hf
          · exact hrooted e he f hf
          · rcases (hplace f hf).2 with ⟨x, hx, hinside'⟩ | ⟨c, -, rfl⟩
            · exact not_uproots_of_inside hs.ordered (hinside e he) hinside' (hdisjoint x hx)
            · exact not_uproots_insert hs.ordered (hparent q hq) (hinside e he) c
        · rcases List.mem_append.mp hf with hf | hf
          · rcases (hplace e he).2 with ⟨x, hx, hinside'⟩ | ⟨c, -, rfl⟩
            · exact not_uproots_of_inside hs.ordered hinside' (hinside f hf)
                fun r hxr hqr => hdisjoint x hx r hqr hxr
            · exact not_uproots_of_insert
          · exact reconcileChildren_rooted hs rest hstored' hparent' hds' hmore e he f hf
    | none =>
        obtain ⟨more, hmore, rfl⟩ := (reconcileChildren_cons_of_new hfind).mp h
        intro e he f hf
        rcases List.mem_cons.mp he with rfl | he
        · exact not_uproots_of_insert
        · rcases List.mem_cons.mp hf with rfl | hf
          · rcases (reconcileChildren_planned hs rest hstored' hds' hmore e he).2 with
              ⟨x, hx, hinside⟩ | ⟨c, -, rfl⟩
            · exact not_uproots_insert hs.ordered (hparent' x hx) hinside d
            · exact not_uproots_of_insert
          · exact reconcileChildren_rooted hs rest hstored' hparent' hds' hmore e he f hf
end

/-! ## Several reconciliations -/

/-- The edits of rows of which none is at or below another are rooted. -/
theorem updateEdits_rooted (hs : s.Sound) {ds : List Draft} {es : List Edit}
    (hds : ∀ d ∈ ds, d.Sound) (hrows : (treeRows s owner ds).Pairwise (Unnested s.rows))
    (h : updateEdits s owner ds = .ok es) : Rooted s.rows es := by
  induction ds generalizing es with
  | nil =>
      cases h
      intro e he
      cases he
  | cons d rest ih =>
      have hrest : ∀ c ∈ rest, c.Sound := fun c hc => hds c (List.mem_cons_of_mem _ hc)
      cases hr : s.rowAt? owner d.path with
      | none =>
          rw [treeRows_cons_of_new hr] at hrows
          rw [updateEdits_cons_of_new hr] at h
          exact ih hrest hrows h
      | some r =>
          rw [treeRows_cons_of_stored hr, List.pairwise_cons] at hrows
          obtain ⟨own, more, hown, hmore, rfl⟩ := (updateEdits_cons_of_stored hr).mp h
          obtain ⟨hmem, howner, hpath⟩ := rowAt?_eq_some hr
          have hd := hds d List.mem_cons_self
          have hinside : ∀ e ∈ own, e.Inside s.rows r := fun e he =>
            (reconcile_planned hs d hmem howner hpath hd hown e he).2
          have hinside' : ∀ f ∈ more, ∃ q, f.Inside s.rows q ∧ Unnested s.rows r q := by
            intro f hf
            obtain ⟨c, hc, q, hq, own', hown', hf⟩ := mem_updateEdits hmore hf
            obtain ⟨hmem', howner', hpath'⟩ := rowAt?_eq_some hq
            exact ⟨q, (reconcile_planned hs c hmem' howner' hpath' (hrest c hc) hown' f hf).2,
              hrows.1 q (List.mem_filterMap.mpr ⟨c, hc, hq⟩)⟩
          intro e he f hf
          rcases List.mem_append.mp he with he | he
          · rcases List.mem_append.mp hf with hf | hf
            · exact reconcile_rooted hs d hmem howner hpath hd hown e he f hf
            · obtain ⟨q, hq, hunnested⟩ := hinside' f hf
              exact not_uproots_of_inside hs.ordered (hinside e he) hq
                (hunnested.disjoint hs.ordered)
          · rcases List.mem_append.mp hf with hf | hf
            · obtain ⟨q, hq, hunnested⟩ := hinside' e he
              exact not_uproots_of_inside hs.ordered hq (hinside f hf)
                fun x hqx hrx => hunnested.disjoint hs.ordered x hrx hqx
            · exact ih hrest hrows.2 hmore e he f hf

end

/-! ## What the engine refuses of such plans -/

theorem hasOwner_effect (owner : Nat) (s : Store) (e : Edit) (id : Nat) :
    (e.effect owner s).hasOwner id = s.hasOwner id := by
  cases e with
  | remove id path => rfl
  | update id path expected attributes => rfl
  | insert parent d => rfl

theorem hasOwner_inTurn (owner : Nat) (edits : List Edit) (s : Store) (id : Nat) :
    (inTurn owner edits s).store.hasOwner id = s.hasOwner id := by
  induction edits generalizing s with
  | nil => rfl
  | cons e rest ih =>
      cases hconflict : e.conflict? owner s with
      | none =>
          rw [inTurn_cons_of_free hconflict]
          exact (ih _).trans (hasOwner_effect owner s e id)
      | some conflict =>
          rw [inTurn_cons_of_conflict hconflict]
          exact ih s

/-- The engine accepts an insertion under a row that none of the edits done has removed. -/
theorem not_faults_insert {owner : Nat} {s t : Store} {done : List Edit} {parent : Option Nat}
    {d : Draft} (h : Traces s done t) (howner : t.hasOwner owner = true)
    (hplanned : (Edit.insert parent d).Planned owner s)
    (hrooted : ∀ f ∈ done, ¬f.Uproots s.rows (.insert parent d)) :
    ¬(Edit.insert parent d).Faults owner t := by
  rintro ⟨-, hmissing⟩
  refine hmissing ⟨howner, (Option.all_eq_true ..).mpr fun p hp => ?_⟩
  obtain ⟨q, hq, rfl, -, -⟩ := hplanned.2 p hp
  refine (h.stays q hq).mpr fun f hf hremoves => ?_
  exact hrooted f hf ⟨q, hq, hremoves, d, by rw [hp]⟩

/-- If the engine refuses an edit of a rooted plan for an owner that is there, it is a
removal, and only removals have had their turns before. -/
theorem isRemove_of_untilFault {owner : Nat} {s : Store} {edits : List Edit} {fault : EngineFault}
    (hs : s.Sound) (howner : s.hasOwner owner = true) (hplanned : ∀ e ∈ edits, e.Planned owner s)
    (hrooted : Rooted s.rows edits) (h : firstFault? owner (inOrder edits) s = some fault) :
    (∃ e ∈ edits, e.isRemove = true)
      ∧ ∀ f ∈ untilFault owner (inOrder edits) s, f.isRemove = true := by
  obtain ⟨e, rest, hsplit, -, hfaults⟩ := exists_fault h
  have hmem : ∀ f ∈ untilFault owner (inOrder edits) s, f ∈ edits := fun f hf =>
    mem_inOrder.mp (hsplit ▸ List.mem_append_left _ hf)
  have he : e ∈ edits :=
    mem_inOrder.mp (hsplit ▸ List.mem_append_right _ List.mem_cons_self)
  have htraces := traces_done hs (.start hs) (fun f hf => hplanned f (hmem f hf))
    (unfaulted_untilFault owner (inOrder edits) s)
  cases e with
  | remove id path => exact ⟨⟨_, he, rfl⟩, isRemove_of_before hsplit rfl⟩
  | update id path expected attributes => exact hfaults.elim
  | insert parent d =>
      refine absurd hfaults (not_faults_insert htraces ?_ (hplanned _ he) fun f hf => ?_)
      · rw [hasOwner_inTurn]
        exact howner
      · rw [List.append_nil, List.mem_reverse] at hf
        exact hrooted f (hmem f (mem_of_mem_done hf)) _ he

end DataTree
