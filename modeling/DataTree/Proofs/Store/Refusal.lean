import DataTree.Proofs.Store.Concurrency
import DataTree.Proofs.Store.Rooted

/-!
# What a refused request leaves behind

A request is planned before it touches a row, so one that makes no sense
changes nothing.  Once a plan is carried out, it may be refused for rows that
changed, for paths that are taken, or by the engine.  A replacement of a list
is one transaction and is undone then.  Other writes keep what they could do
besides the conflicts; but where the engine refuses an edit nothing stays
either, unless a conflict came first and the edits were retried one by one.
That takes an update of trees that repeat or lie inside each other: only there
does an edit insert under a row that is gone, or find its own row gone before
another removes rows that go too far down.

## Main definitions

* `Request.isUnit` — the requests carried out as a whole or not at all.

## Main results

* `refused_unchanged` — all other refusals leave the store as it is.
* `plan_rooted` — only plans for nested trees uproot their own insertions.
* `engine_leaves_part_iff` — when a refusal by the engine does not.
-/

namespace DataTree

/-! ## Refusals before and after the plan -/

/-- Whether a request is carried out as a whole or not at all. -/
def Request.isUnit : Request → Bool
  | .write _ (.replaceList ..) => true
  | _ => false

theorem refusal?_eq_some_iff {α : Type} {x : Outcome α} {e : StoreError} :
    Outcome.refusal? x = some e ↔ x = .error e := by
  cases x with
  | error e' => simp [Outcome.refusal?]
  | ok a => simp [Outcome.refusal?]

/-- A change that leaves the store as it is when it is refused. -/
def AllOrNothing {α : Type} (s : Store) (result : Store × Outcome α) : Prop :=
  ∀ e, result.2 = .error e → result.1 = s

section

variable {s : Store} {access : Access} {owner : Owner} {e : StoreError}

theorem AllOrNothing.refused {α : Type} (e : StoreError) :
    AllOrNothing (α := α) s (s, .error e) := fun _ _ => rfl

theorem AllOrNothing.answered {α : Type} (s' : Store) (a : α) :
    AllOrNothing s (s', .ok a) := by
  intro e h
  cases h

theorem AllOrNothing.guarded {α : Type} {result : Store × Outcome α}
    (h : AllOrNothing s result) : AllOrNothing s (Store.guarded access s result) := by
  rw [Store.guarded]
  split
  · exact .refused _
  · exact h

/-- A plan that is carried out is refused late. -/
theorem comesLate_of_answer {result : Except EngineFault Applied}
    (h : Change.answer owner result = .error e) : e.comesLate = true := by
  cases result with
  | error fault =>
      cases h
      rfl
  | ok applied =>
      cases applied with
      | complete summary => cases h
      | partly summary skipped =>
          rw [Change.answer, Applied.answer] at h
          split at h <;> cases h <;> rfl

theorem comesLate_of_commit {change : Change} (h : (change.commit s owner).2 = .error e) :
    e.comesLate = true := by
  cases change with
  | edits es => exact comesLate_of_answer h
  | unit es => exact comesLate_of_answer h
  | removal ids =>
      rw [(Change.remove_eq_error h).1]
      rfl
  | clear =>
      rw [(Change.remove_eq_error h).1]
      rfl

/-- A unit that is refused is undone. -/
theorem allOrNothing_unit (s : Store) (owner : Owner) (es : List Edit) :
    AllOrNothing s (Change.commit s owner (.unit es)) := by
  intro e h
  have hanswer : Change.answer owner (applyAsUnit owner.id es s).2 = .error e := h
  show (applyAsUnit owner.id es s).1 = s
  rw [applyAsUnit] at hanswer ⊢
  split at hanswer
  · rfl
  · split at hanswer
    · cases hanswer
    · rename_i hskipped
      rw [if_neg hskipped]

/-- A write is refused before it is carried out, or its plan is. -/
theorem write_of_refused {w : Write} (h : (s.write access owner w).2 = .error e) :
    (s.write access owner w).1 = s ∨
      access = .readWrite ∧ ∃ change, w.plan s owner = .ok change
        ∧ s.write access owner w = change.commit s owner := by
  rw [Store.write] at h ⊢
  split at h
  · exact .inl rfl
  · rename_i change hplan
    split at h
    · rename_i hreadOnly
      rw [if_pos hreadOnly]
      exact .inl rfl
    · rename_i hwritten
      rw [if_neg hwritten]
      cases access with
      | readWrite => exact .inr ⟨rfl, change, hplan, rfl⟩
      | readOnly =>
          -- a handle that may only read carries out nothing but empty plans
          refine .inl ?_
          cases change with
          | edits es =>
              cases es with
              | nil => rfl
              | cons e rest => exact absurd rfl hwritten
          | unit es =>
              cases es with
              | nil => rfl
              | cons e rest => exact absurd rfl hwritten
          | removal ids => exact absurd rfl hwritten
          | clear => exact absurd rfl hwritten

/-- A request other than a write does all that it is for, or nothing. -/
theorem run_of_refused {asked : Request} (h : asked.refusal? access s = some e)
    (hwrite : ∀ owner w, asked ≠ .write owner w) : asked.run access s = s := by
  cases asked with
  | createDataspace name =>
      refine AllOrNothing.guarded ?_ _ (refusal?_eq_some_iff.mp h)
      split
      · exact .refused _
      · exact .answered _ _
  | createOwner dataspace name =>
      refine AllOrNothing.guarded ?_ _ (refusal?_eq_some_iff.mp h)
      split
      · exact .refused _
      · split
        · exact .answered _ _
        · exact .refused _
  | deleteOwner owner =>
      refine AllOrNothing.guarded ?_ _ (refusal?_eq_some_iff.mp h)
      split
      · split
        · exact .refused _
        · exact .answered _ _
      · exact .refused _
  | write owner w => exact absurd rfl (hwrite owner w)
  | deleteForOwners dataspace names =>
      have hwhole : AllOrNothing s (s.deleteForOwners access dataspace names) := by
        rw [Store.deleteForOwners]
        split
        · exact .answered _ _
        · refine .guarded ?_
          split
          · exact .refused _
          · exact .answered _ _
      exact hwhole e (refusal?_eq_some_iff.mp h)

/-- A request that is refused leaves the whole store as it is, ids and leaves
included, unless it is refused by the engine, for paths that are taken or for
rows that changed; a replacement of a list leaves it in every case. -/
theorem refused_unchanged (h : Reachable s) (access : Access) {asked : Request}
    (hrefused : asked.refusal? access s = some e)
    (hkind : e.comesLate = false ∨ asked.isUnit = true) : asked.run access s = s := by
  by_cases hwrite : ∃ owner w, asked = .write owner w
  · obtain ⟨owner, w, rfl⟩ := hwrite
    have herror : (s.write access owner w).2 = .error e := refusal?_eq_some_iff.mp hrefused
    rcases write_of_refused herror with hsame | ⟨-, change, hplan, hcommit⟩
    · exact hsame
    · rw [hcommit] at herror
      rw [Request.run, hcommit]
      rcases hkind with hearly | hunit
      · rw [comesLate_of_commit herror] at hearly
        cases hearly
      · cases w with
        | replaceList parent elements =>
            obtain ⟨id, stored, ds, es, -, -, -, rfl⟩ :=
              planReplaceList_eq_ok (sound_of_reachable h) hplan
            exact allOrNothing_unit s owner es e herror
        | _ => cases hunit
  · exact run_of_refused hrefused fun owner w heq => hwrite ⟨owner, w, heq⟩

/-- A list replaced by two equal elements, which removes the old ones before
the second is found to be taken; and a tree with a child elsewhere, stored
after one that is sound. -/
theorem refused_unchanged_of_taken_element :
    let owner : Owner := ⟨1, 1, "d", "o"⟩
    let child := Node.leafless "/c"
    let taken : Request := .write owner (.replaceList "/"
      [.leafless "/l[@k='2']", .leafless "/l[@k='2']"])
    let displaced : Request := .write owner (.store
      [.leafless "/a", .mk "/b" [] [(child.path, child)]])
    ∃ s, Reachable s ∧ s.rows.map Row.path = ["/l[@k='1']"]
      ∧ taken.refusal? .readWrite s = some (.alreadyStored "o" ["/l[@k='2']"])
      ∧ taken.run .readWrite s = s
      ∧ displaced.refusal? .readWrite s
        = some (.invalidNode (.childOutsideParent "/b" "/c"))
      ∧ displaced.run .readWrite s = s := by
  intro owner child taken displaced
  have hreach := Reachable.empty
    |>.step .readWrite (.createDataspace "d")
    |>.step .readWrite (.createOwner ⟨1, "d"⟩ "o")
    |>.step .readWrite (.write owner (.store [.leafless "/l[@k='1']"]))
  refine ⟨_, hreach, by decide +kernel, by decide +kernel, ?_, by decide +kernel, ?_⟩
  · exact refused_unchanged (e := .alreadyStored "o" ["/l[@k='2']"]) hreach .readWrite
      (by decide +kernel) (.inr rfl)
  · exact refused_unchanged (e := .invalidNode (.childOutsideParent "/b" "/c")) hreach .readWrite
      (by decide +kernel) (.inl rfl)

/-! ## Refusals by the engine -/

/-- An insertion under a row that is there is not refused. -/
theorem not_faults_of_place {id : Nat} {parent : Option Nat} {d : Draft} (hs : s.Sound)
    (hplanned : (Edit.insert parent d).Planned id s) {p : Nat} (hplace : parent = some p) :
    ¬(Edit.insert parent d).Faults id s := by
  obtain ⟨q, hq, rfl, rfl, -⟩ := hplanned.2 p hplace
  rintro ⟨-, hmissing⟩
  refine hmissing ⟨hs.owned q hq, ?_⟩
  rw [hplace]
  exact Store.hasRow_iff.mpr ⟨q, hq, rfl⟩

/-- For an owner that is not there the first edit of a plan is refused. -/
theorem untilFault_of_missing {id : Nat} {edits : List Edit} (hs : s.Sound)
    (howner : s.hasOwner id = false) (hplanned : ∀ f ∈ edits, f.Planned id s) :
    untilFault id edits s = [] := by
  have hnone : ∀ r ∈ s.rows, r.owner ≠ id := by
    rintro r hr rfl
    rw [hs.owned r hr] at howner
    cases howner
  cases edits with
  | nil => rfl
  | cons f rest =>
      have hf := hplanned f List.mem_cons_self
      rw [untilFault, if_pos]
      cases f with
      | remove x path =>
          obtain ⟨r, hr, hid, -⟩ := hf
          exact absurd hid (hnone r hr)
      | update x path expected attributes =>
          obtain ⟨r, hr, hid, -⟩ := hf
          exact absurd hid (hnone r hr)
      | insert parent d =>
          refine ⟨fun hmem => ?_, fun hthere => ?_⟩
          · obtain ⟨r, hr, hid, -⟩ := Store.mem_pathsOf.mp hmem
            exact hnone r hr hid
          · rw [howner] at hthere
            cases hthere.1

/-- The edits of an update of trees are about rows that are there. -/
theorem exists_place_of_updateTrees (hs : s.Sound) {nodes : List Node} {edits : List Edit}
    (hplan : (Write.updateTrees nodes).plan s owner = .ok (.edits edits)) :
    ∀ f ∈ edits, ∃ p, f.place? = some p := by
  obtain ⟨ds, hds, h⟩ := bind_eq_ok_iff.mp hplan
  obtain ⟨es, hes, h⟩ := bind_eq_ok_iff.mp h
  cases h
  intro f hf
  obtain ⟨d, hd, r, hr, own, hown, hf⟩ := mem_updateEdits hes hf
  obtain ⟨hmem, howner, hpath⟩ := rowAt?_eq_some hr
  obtain ⟨-, q, -, hplace⟩ :=
    reconcile_planned hs d hmem howner hpath (sound_of_draftsOfAll hds d hd) hown f hf
  exact ⟨q.id, hplace⟩

/-- Only an update of trees is planned with edits that remove rows. -/
theorem updateTrees_of_remove (hs : s.Sound) {w : Write} {edits : List Edit}
    (hplan : w.plan s owner = .ok (.edits edits)) {e : Edit} (he : e ∈ edits)
    (hremove : e.isRemove = true) : ∃ nodes, w = .updateTrees nodes := by
  have hinserts : ∀ {parent : Option Nat} {ds : List Draft}, e ∉ ds.map (.insert parent) := by
    intro parent ds hmem
    obtain ⟨d, -, rfl⟩ := List.mem_map.mp hmem
    cases hremove
  have hbatch : ∀ {updates : List (String × Leaves)} {es : List Edit},
      batchEdits s owner.id updates = .ok es → e ∉ es := by
    intro updates es hes hmem
    obtain ⟨u, -, own, hown, hmem⟩ := mem_batchEdits hes hmem
    obtain ⟨r, -, -, -, old, -, rfl⟩ := eq_update_of_mem_mergeEdits hown hmem
    cases hremove
  have hadd : ∀ {parent : String} {nodes : List Node},
      planAdd s owner parent nodes ≠ .ok (.edits edits) := by
    intro parent nodes h
    obtain ⟨target, -, h⟩ := bind_eq_ok_iff.mp h
    obtain ⟨ds, -, h⟩ := bind_eq_ok_iff.mp h
    cases h
    exact hinserts he
  cases w with
  | store nodes =>
      obtain ⟨ds, -, heq⟩ := map_eq_ok_iff.mp hplan
      cases heq
      exact absurd he hinserts
  | add parent nodes => exact absurd hplan hadd
  | addList parent elements =>
      rw [Write.plan, planAddList] at hplan
      split at hplan
      · cases hplan
      · exact absurd hplan hadd
  | updateLeaves path leaves =>
      obtain ⟨target, -, h⟩ := bind_eq_ok_iff.mp hplan
      obtain ⟨es, hes, h⟩ := bind_eq_ok_iff.mp h
      cases h
      exact absurd he (hbatch hes)
  | updateBatch updates =>
      obtain ⟨es, hes, heq⟩ := map_eq_ok_iff.mp hplan
      cases heq
      exact absurd he (hbatch hes)
  | updateTrees nodes => exact ⟨nodes, rfl⟩
  | replaceList parent elements =>
      obtain ⟨id, stored, ds, es, -, -, -, heq⟩ := planReplaceList_eq_ok hs hplan
      cases heq
  | delete path =>
      rw [Write.plan, planDelete] at hplan
      split at hplan
      · cases hplan
      · obtain ⟨target, -, h⟩ := bind_eq_ok_iff.mp hplan
        cases removalOf_eq_ok h
  | deleteMany paths =>
      rw [Write.plan, planDeleteMany] at hplan
      split at hplan
      · cases hplan
      · split at hplan <;> cases hplan
  | deleteList path =>
      obtain ⟨q, -, h⟩ := bind_eq_ok_iff.mp hplan
      simp only at h
      split at h
      · cases h
      · cases removalOf_eq_ok h
  | deleteAll => cases hplan

/-- No plan uproots its own insertions, but for trees that repeat or nest. -/
theorem plan_rooted (hs : s.Sound) {w : Write} {edits : List Edit}
    (hplan : w.plan s owner = .ok (.edits edits))
    (htrees : ∀ nodes, w = .updateTrees nodes → ¬w.Aliases s owner) : Rooted s.rows edits := by
  by_cases hremoval : ∃ e ∈ edits, e.isRemove = true
  · obtain ⟨e, he, hremove⟩ := hremoval
    obtain ⟨nodes, rfl⟩ := updateTrees_of_remove hs hplan he hremove
    obtain ⟨ds, hds, h⟩ := bind_eq_ok_iff.mp hplan
    obtain ⟨es, hes, h⟩ := bind_eq_ok_iff.mp h
    cases h
    refine updateEdits_rooted hs (sound_of_draftsOfAll hds) ?_ hes
    by_contra hnested
    exact htrees nodes rfl ⟨ds, hds, hnested⟩
  · refine rooted_of_not_remove fun e he => ?_
    simpa using fun hremove => hremoval ⟨e, he, hremove⟩

theorem firstFault?_of_commit {edits : List Edit} {fault : EngineFault}
    (h : (Change.commit s owner (.edits edits)).2 = .error (.engine fault)) :
    firstFault? owner.id (inOrder edits) s = some fault := by
  have hanswer : Change.answer owner (applyWithFallback owner.id edits s).2
      = .error (.engine fault) := h
  cases hfirst : firstFault? owner.id (inOrder edits) s with
  | some first =>
      rw [applyWithFallback_of_faulted hfirst] at hanswer
      cases hanswer
      rfl
  | none =>
      obtain ⟨applied, happlied⟩ := unfaulted_iff.mp (firstFault?_eq_none_iff.mp hfirst)
      rw [happlied] at hanswer
      cases applied with
      | complete summary => cases hanswer
      | partly summary skipped =>
          rw [Change.answer, Applied.answer] at hanswer
          split at hanswer <;> cases hanswer

theorem commit_of_faulted {edits : List Edit} {fault : EngineFault}
    (h : firstFault? owner.id (inOrder edits) s = some fault) :
    (Change.commit s owner (.edits edits)).1 =
      if (inTurn owner.id (untilFault owner.id (inOrder edits) s) s).skipped = [] then s
      else (inTurn owner.id (untilFault owner.id (inOrder edits) s) s).store := by
  show (applyWithFallback owner.id edits s).1 = _
  rw [applyWithFallback_of_faulted h]

/-- Edits of an owner that is there are refused by the engine after one of them was
skipped only if they update trees that repeat or nest. -/
theorem aliases_of_faulted (hs : s.Sound) {w : Write} {edits : List Edit} {fault : EngineFault}
    (hplan : w.plan s owner = .ok (.edits edits)) (howner : s.hasOwner owner.id = true)
    (hfault : firstFault? owner.id (inOrder edits) s = some fault)
    (hskipped : (inTurn owner.id (untilFault owner.id (inOrder edits) s) s).skipped ≠ []) :
    ∃ nodes, w = .updateTrees nodes ∧ w.Aliases s owner := by
  by_contra hnone
  have hrooted := plan_rooted hs hplan fun nodes hw haliases => hnone ⟨nodes, hw, haliases⟩
  obtain ⟨⟨e, he, hremove⟩, hfront⟩ :=
    isRemove_of_untilFault hs howner (plan_planned hs hplan) hrooted hfault
  obtain ⟨nodes, rfl⟩ := updateTrees_of_remove hs hplan he hremove
  -- removals of which none spoils another are all done
  have hpairs := not_spoils_inOrder (plan_apart hs rfl
    (fun haliases => hnone ⟨nodes, rfl, haliases⟩) (.inl hplan))
  obtain ⟨f, rest, hsplit, -⟩ := exists_fault hfault
  rw [hsplit, List.pairwise_append] at hpairs
  obtain ⟨c, hc⟩ := List.exists_mem_of_ne_nil _ hskipped
  refine (stale_not_mem_skipped_iff hs (.start hs) (fun g hg => plan_planned hs hplan g
    (mem_inOrder.mp (hsplit ▸ List.mem_append_left _ hg)))
    (unfaulted_untilFault owner.id (inOrder edits) s)).mpr ⟨by simp, hpairs.1⟩ c hc ?_
  refine stale_of_mem_skipped (fun g hg => ?_) c hc
  cases g with
  | insert parent d => cases hfront _ hg
  | _ => rfl

/-- Removals of rows that are there have taken one of them away, if any had its turn. -/
theorem inTurn_ne_of_removals (hs : s.Sound) {id : Nat} {edits : List Edit} (hne : edits ≠ [])
    (hplanned : ∀ f ∈ edits, f.Planned id s) (hremove : ∀ f ∈ edits, f.isRemove = true)
    (hunfaulted : Unfaulted id edits s) : (inTurn id edits s).store ≠ s := by
  intro hsame
  have htraces := traces_done hs (.start hs) hplanned hunfaulted
  obtain ⟨f, rest, rfl⟩ := List.exists_cons_of_ne_nil hne
  cases f with
  | remove x path =>
      obtain ⟨r, hr, -, rfl, rfl⟩ := hplanned _ List.mem_cons_self
      have hrow : s.hasRow r.id = true := Store.hasRow_iff.mpr ⟨r, hr, rfl⟩
      have hdone : Edit.remove r.id r.path ∈ (inTurn id (.remove r.id r.path :: rest) s).done := by
        rw [inTurn_cons_of_free (Edit.conflict?_remove_eq_none_iff.mpr hrow)]
        exact List.mem_cons_self
      rw [hsame] at htraces
      exact (htraces.stays r hr).mp hrow _
        (List.mem_append_left _ (List.mem_reverse.mpr hdone)) ⟨r, .self hr, r.path, rfl⟩
  | update x path expected attributes => cases hremove _ List.mem_cons_self
  | insert parent d => cases hremove _ List.mem_cons_self

/-- A request that is refused by the engine leaves a part of itself behind
exactly if it is an update of trees that repeat or nest, of which one edit was
skipped before the engine refused another: then the edits between stay
done. -/
theorem engine_leaves_part_iff (h : Reachable s) (access : Access) {asked : Request}
    {fault : EngineFault} (hrefused : asked.refusal? access s = some (.engine fault)) :
    asked.run access s ≠ s ↔ ∃ owner nodes edits,
      asked = .write owner (.updateTrees nodes) ∧ (Write.updateTrees nodes).Aliases s owner
        ∧ access = .readWrite ∧ (Write.updateTrees nodes).plan s owner = .ok (.edits edits)
        ∧ (inTurn owner.id (untilFault owner.id (inOrder edits) s) s).skipped ≠ []
        ∧ asked.run access s
          = (inTurn owner.id (untilFault owner.id (inOrder edits) s) s).store := by
  have hs := sound_of_reachable h
  constructor
  · intro hpart
    by_cases hwrite : ∃ owner w, asked = .write owner w
    · obtain ⟨owner, w, rfl⟩ := hwrite
      have herror : (s.write access owner w).2 = .error (.engine fault) :=
        refusal?_eq_some_iff.mp hrefused
      obtain ⟨haccess, change, hplan, hcommit⟩ := (write_of_refused herror).resolve_left hpart
      rw [hcommit] at herror
      cases change with
      | edits edits =>
          have hfault := firstFault?_of_commit herror
          have hrun : (Request.write owner w).run access s =
              if (inTurn owner.id (untilFault owner.id (inOrder edits) s) s).skipped = [] then s
              else (inTurn owner.id (untilFault owner.id (inOrder edits) s) s).store := by
            rw [Request.run, hcommit, commit_of_faulted hfault]
          have hskipped :
              (inTurn owner.id (untilFault owner.id (inOrder edits) s) s).skipped ≠ [] :=
            fun hnil => hpart (hrun.trans (if_pos hnil))
          have howner : s.hasOwner owner.id = true := by
            by_contra hmissing
            refine hskipped ?_
            rw [untilFault_of_missing hs (by simpa using hmissing) fun f hf =>
              plan_planned hs hplan f (mem_inOrder.mp hf)]
            rfl
          obtain ⟨nodes, rfl, haliases⟩ := aliases_of_faulted hs hplan howner hfault hskipped
          exact ⟨owner, nodes, edits, rfl, haliases, haccess, hplan, hskipped,
            hrun.trans (if_neg hskipped)⟩
      | unit edits =>
          rw [Request.run, hcommit] at hpart
          exact absurd (allOrNothing_unit s owner edits _ herror) hpart
      | removal ids =>
          rw [Request.run, hcommit] at hpart
          exact absurd (Change.remove_eq_error herror).2 hpart
      | clear =>
          rw [Request.run, hcommit] at hpart
          exact absurd (Change.remove_eq_error herror).2 hpart
    · exact absurd (run_of_refused hrefused fun owner w heq => hwrite ⟨owner, w, heq⟩) hpart
  · rintro ⟨owner, nodes, edits, rfl, -, rfl, hplan, hskipped, hleft⟩ hsame
    have hcommit : s.write .readWrite owner (.updateTrees nodes)
        = Change.commit s owner (.edits edits) := by
      rw [Store.write, hplan]
      rfl
    have herror : (s.write .readWrite owner (.updateTrees nodes)).2 = .error (.engine fault) :=
      refusal?_eq_some_iff.mp hrefused
    rw [hcommit] at herror
    obtain ⟨f, rest, hsplit, -, hfaults⟩ := exists_fault (firstFault?_of_commit herror)
    have hf : f ∈ edits := mem_inOrder.mp (hsplit ▸ List.mem_append_right _ List.mem_cons_self)
    have hplanned := plan_planned hs hplan
    have hstore := hleft.symm.trans hsame
    cases f with
    | insert parent d =>
        -- the row that it goes under was there before the write
        rw [hstore] at hfaults
        obtain ⟨p, hplace⟩ := exists_place_of_updateTrees hs hplan _ hf
        exact not_faults_of_place hs (hplanned _ hf) hplace hfaults
    | remove id path =>
        refine inTurn_ne_of_removals hs (fun hnil => hskipped ?_) (fun g hg => hplanned g
          (mem_inOrder.mp (hsplit ▸ List.mem_append_left _ hg))) (isRemove_of_before hsplit rfl)
          (unfaulted_untilFault owner.id (inOrder edits) s) hstore
        rw [hnil]
        rfl
    | update id path expected attributes => exact hfaults

/-- A tree and one inside it that it does not keep: the inner tree is removed
with its rows, so its new leaves are skipped, and then the engine refuses
what was to be inserted into it. -/
theorem engine_leaves_part_iff_of_nested_trees :
    let owner : Owner := ⟨1, 1, "d", "o"⟩
    let new := Node.leafless "/p/x/z"
    let nodes : List Node := [.leafless "/p", .mk "/p/x" [("w", .bool true)] [(new.path, new)]]
    ∃ s, Reachable s
      ∧ (Request.write owner (.updateTrees nodes)).refusal? .readWrite s
        = some (.engine .foreignKey)
      ∧ (Write.updateTrees nodes).Aliases s owner := by
  intro owner new nodes
  let old := Node.leafless "/p/x"
  have hreach := Reachable.empty
    |>.step .readWrite (.createDataspace "d")
    |>.step .readWrite (.createOwner ⟨1, "d"⟩ "o")
    |>.step .readWrite (.write owner (.store
      [.mk "/p" [("v", .bool true)] [(old.path, old)]]))
  refine ⟨_, hreach, by decide +kernel, ?_⟩
  obtain ⟨owner', nodes', edits, hasked, haliases, -⟩ :=
    (@engine_leaves_part_iff _ hreach .readWrite (.write owner (.updateTrees nodes)) .foreignKey
      (by decide +kernel)).mp (by decide +kernel)
  obtain ⟨rfl, hw⟩ := Request.write.inj hasked
  rw [← Write.updateTrees.inj hw] at haliases
  exact haliases

/-- A write that the engine refuses can leave a part of itself behind: here
the row of the inner tree is gone. -/
theorem engine_leaves_removal :
    let owner : Owner := ⟨1, 1, "d", "o"⟩
    let new := Node.leafless "/a/b/c"
    let asked : Request := .write owner (.updateTrees
      [.leafless "/a", .mk "/a/b" [("x", .bool true)] [(new.path, new)]])
    ∃ s, Reachable s ∧ s.rows.map Row.path = ["/a", "/a/b"]
      ∧ asked.refusal? .readWrite s = some (.engine .foreignKey)
      ∧ (asked.run .readWrite s).rows.map Row.path = ["/a"] := by
  intro owner new asked
  let old := Node.leafless "/a/b"
  have hreach := Reachable.empty
    |>.step .readWrite (.createDataspace "d")
    |>.step .readWrite (.createOwner ⟨1, "d"⟩ "o")
    |>.step .readWrite (.write owner (.store [.mk "/a" [] [(old.path, old)]]))
  exact ⟨_, hreach, by decide +kernel, by decide +kernel, by decide +kernel⟩

end

end DataTree
