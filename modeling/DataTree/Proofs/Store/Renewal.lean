import DataTree.Proofs.Store.Apart
import DataTree.Proofs.Store.Parts
import DataTree.Proofs.Store.Reachable
import DataTree.Proofs.Store.Share

/-!
# Stored trees made equal to nodes

An update of trees that succeeds leaves each stored tree equal to the node
listed for it.  The rows that a node keeps stay the rows they are, nothing
else is touched, and the same update once more has nothing left to do.

## Main definitions

* `Renewable` — what has to hold of the trees listed.
* `Keeps` — a stored row that a node keeps.

## Main results

* `updateTrees_renews` — what an update of trees does.
-/

namespace DataTree

open DataTree.Path

/-! ## Updates of trees -/

section

variable {s : Store} {owner : Nat} {ds : List Draft} {es : List Edit}

/-- Stored trees are different rows, of which none is below another. -/
def Unrelated (s : Store) (owner : Nat) (ds : List Draft) : Prop :=
  (ds.map Draft.path).Nodup ∧ ∀ c ∈ ds, ∀ d ∈ ds, ∀ q r, s.rowAt? owner c.path = some q →
    s.rowAt? owner d.path = some r → AtOrBelow s.rows q r → q = r

theorem exists_reconcile_of_updateEdits (h : updateEdits s owner ds = .ok es) {d : Draft}
    (hd : d ∈ ds) {r : Row} (hr : s.rowAt? owner d.path = some r) :
    ∃ own, reconcile s.rows r d = .ok own ∧ own.Sublist es := by
  induction ds generalizing es with
  | nil => cases hd
  | cons c rest ih =>
      cases hc : s.rowAt? owner c.path with
      | none =>
          rw [updateEdits_cons_of_new hc] at h
          rcases List.mem_cons.mp hd with rfl | hd
          · cases hc.symm.trans hr
          · exact ih h hd
      | some q =>
          obtain ⟨own, more, hown, hmore, rfl⟩ := (updateEdits_cons_of_stored hc).mp h
          rcases List.mem_cons.mp hd with rfl | hd
          · cases hc.symm.trans hr
            exact ⟨own, hown, List.sublist_append_left _ _⟩
          · obtain ⟨own', hown', hsub⟩ := ih hmore hd
            exact ⟨own', hown', hsub.trans (List.sublist_append_right _ _)⟩

/-- Each edit is about a row at or below one of the stored trees. -/
theorem exists_inside_of_updateEdits (hs : s.Sound) (hds : ∀ d ∈ ds, d.Sound)
    (h : updateEdits s owner ds = .ok es) {e : Edit} (he : e ∈ es) :
    ∃ d ∈ ds, ∃ r, s.rowAt? owner d.path = some r ∧ e.Inside s.rows r
      ∧ ∃ own, reconcile s.rows r d = .ok own ∧ e ∈ own := by
  obtain ⟨d, hd, r, hr, own, hown, hmem⟩ := mem_updateEdits h he
  obtain ⟨hrow, howner, hpath⟩ := rowAt?_eq_some hr
  exact ⟨d, hd, r, hr, (reconcile_planned hs d hrow howner hpath (hds d hd) hown e hmem).2,
    own, hown, hmem⟩

/-- The share of a stored tree in an update of unrelated trees. -/
theorem share_of_updateEdits (hs : s.Sound) (hds : ∀ d ∈ ds, d.Sound)
    (hunrelated : Unrelated s owner ds) (h : updateEdits s owner ds = .ok es) {d : Draft}
    (hd : d ∈ ds) {r : Row} (hr : s.rowAt? owner d.path = some r) :
    ∃ own, Share owner s es r d own := by
  obtain ⟨hrow, howner, hpath⟩ := rowAt?_eq_some hr
  obtain ⟨own, hown, hsub⟩ := exists_reconcile_of_updateEdits h hd hr
  -- an edit about a tree above or below that of `d` is one for `d`
  have hsame : ∀ {c : Draft} {q : Row} {own' : List Edit}, c ∈ ds →
      s.rowAt? owner c.path = some q → reconcile s.rows q c = .ok own' →
      AtOrBelow s.rows q r ∨ AtOrBelow s.rows r q → q = r ∧ own' = own := by
    intro c q own' hc hq hown' hrelated
    have hqr : q = r := by
      rcases hrelated with hrelated | hrelated
      · exact hunrelated.2 c hc d hd q r hq hr hrelated
      · exact (hunrelated.2 d hd c hc r q hr hq hrelated).symm
    subst hqr
    obtain ⟨-, -, hcpath⟩ := rowAt?_eq_some hq
    have hcd : c = d := List.inj_on_of_nodup_map hunrelated.1 hc hd (hcpath.symm.trans hpath)
    subst hcd
    exact ⟨rfl, Except.ok.inj (hown'.symm.trans hown)⟩
  refine ⟨own, hrow, howner, hpath, hds d hd, hown, hsub, fun e he hinside => ?_, ?_⟩
  · obtain ⟨c, hc, q, hq, ⟨x, hx, hplace⟩, own', hown', hmem⟩ :=
      exists_inside_of_updateEdits hs hds h he
    obtain ⟨y, hy, hplace'⟩ := hinside
    have hid : x.id = y.id := Option.some.inj (hplace.symm.trans hplace')
    rw [hs.eq_of_id hx.mem hy.mem hid] at hx
    rw [← (hsame hc hq hown' (hx.linear hy hs.ordered)).2]
    exact hmem
  · rintro e he ⟨a, ha, path, rfl⟩
    obtain ⟨c, hc, q, hq, ⟨x, hx, hplace⟩, own', hown', hmem⟩ :=
      exists_inside_of_updateEdits hs hds h he
    have hid : a.id = x.id := Option.some.inj hplace
    rw [← hs.eq_of_id ha.mem_top hx.mem hid] at hx
    obtain ⟨rfl, rfl⟩ := hsame hc hq hown' (.inl (hx.trans ha))
    have hsame' : a = q := hs.eq_of_id ha.mem_top hrow
      (Nat.le_antisymm (ha.le hs.ordered) (hx.le hs.ordered))
    rw [hsame'] at hmem
    exact not_mem_remove_self hs hrow howner hpath (hds d hd) hown path hmem

/-- Settled trees need no edit. -/
theorem updateEdits_of_settled (h : ∀ d ∈ ds, ∀ r, s.rowAt? owner d.path = some r →
    Settled s.rows r d) : updateEdits s owner ds = .ok [] := by
  induction ds with
  | nil => rfl
  | cons d rest ih =>
      have hrest := ih fun c hc => h c (List.mem_cons_of_mem d hc)
      cases hr : s.rowAt? owner d.path with
      | none => rw [updateEdits_cons_of_new hr, hrest]
      | some r =>
          exact (updateEdits_cons_of_stored hr).mpr
            ⟨[], [], h d List.mem_cons_self r hr, hrest, rfl⟩

/-! ## Rows elsewhere -/

variable {s' : Store}

/-- The plan is confined to the stored trees. -/
theorem confined_of_updateEdits (hs : s.Sound) (hds : ∀ d ∈ ds, d.Sound)
    (h : updateEdits s owner ds = .ok es) :
    Confined s (fun t => ∃ d ∈ ds, s.rowAt? owner d.path = some t) none (fun _ => False) es := by
  intro e he
  obtain ⟨d, hd, t, ht, hinside, -⟩ := exists_inside_of_updateEdits hs hds h he
  exact .inl ⟨t, ⟨d, hd, ht⟩, hinside⟩

/-- What is new or changed lies at or below a stored tree. -/
theorem mem_or_below (hds : ∀ d ∈ ds, d.Sound) (h : updateEdits s owner ds = .ok es)
    (hplan : Enacted owner s es s') {r' : Row} (hr' : r' ∈ s'.rows) :
    r' ∈ s.rows ∨ ∃ d ∈ ds, ∃ t, s.rowAt? owner d.path = some t
      ∧ ∃ t', t'.id = t.id ∧ AtOrBelow s'.rows t' r' := by
  have hconfined := confined_of_updateEdits hplan.before hds h
  rcases hplan.mem_or_below hconfined hr' with hold | ⟨t', ht', ⟨t, ⟨d, hd, ht⟩, hid⟩ | hnew⟩
  · exact .inl hold
  · exact .inr ⟨d, hd, t, ht, t', hid, ht'⟩
  · obtain ⟨-, -, d, hd, -⟩ := hnew
    exact hd.elim

/-- A stored tree keeps its row, and its subtree is settled afterwards. -/
theorem exists_settled (hds : ∀ d ∈ ds, d.Sound) (hunrelated : Unrelated s owner ds)
    (h : updateEdits s owner ds = .ok es) (hplan : Enacted owner s es s') {d : Draft} (hd : d ∈ ds)
    {r : Row} (hr : s.rowAt? owner d.path = some r) :
    ∃ r' ∈ s'.rows, r' = { r with attributes := r'.attributes } ∧ Settled s'.rows r' d := by
  obtain ⟨own, hshare⟩ := share_of_updateEdits hplan.before hds hunrelated h hd hr
  obtain ⟨r', hr', heq⟩ := hshare.exists_row hplan
  exact ⟨r', hr', heq, settled_of_share hplan (hds d hd) hshare hr' (by rw [heq])⟩

/-- What is not stored under a listed path stays so, if no other tree has
that path inside. -/
theorem rowAt?_eq_none_of_new (hds : ∀ d ∈ ds, d.Sound) (hunrelated : Unrelated s owner ds)
    (h : updateEdits s owner ds = .ok es) (hplan : Enacted owner s es s') {d : Draft}
    (houtside : ∀ c ∈ ds, c.path ≠ d.path → d.path ∉ Draft.pathsOfAll c.children)
    (hr : s.rowAt? owner d.path = none) : s'.rowAt? owner d.path = none := by
  by_contra hsome
  obtain ⟨r', hr'⟩ := Option.ne_none_iff_exists'.mp hsome
  obtain ⟨hrow, howner, hpath⟩ := rowAt?_eq_some hr'
  rcases mem_or_below hds h hplan hrow with hold | ⟨c, hc, t, ht, t', htid, hbelow⟩
  · have htaken := Store.isSome_rowAt?_iff.mpr
      (Store.mem_pathsOf.mpr ⟨r', hold, howner, hpath⟩)
    rw [hr] at htaken
    cases htaken
  · have hne : c.path ≠ d.path := by
      intro heq
      rw [← heq, ht] at hr
      cases hr
    obtain ⟨x, hx, heq, hsettled⟩ := exists_settled hds hunrelated h hplan hc ht
    have hsame : x = t' := hplan.traces.sound.eq_of_id hx hbelow.mem_top (by rw [heq, htid])
    subst hsame
    obtain ⟨-, -, htpath⟩ := rowAt?_eq_some ht
    obtain ⟨f, -, hfpath, hsub⟩ :=
      hsettled.below hplan.traces.sound (by rw [heq]; exact htpath) hbelow
    have hmem : d.path ∈ c.paths := by
      rw [← hpath, hfpath]
      exact hsub f.path_mem_paths
    refine houtside c hc hne ?_
    obtain ⟨path, attributes, children⟩ := c
    exact (List.mem_cons.mp hmem).resolve_left hne.symm

/-- Afterwards the trees stored under the listed paths are settled. -/
theorem settled_again (hds : ∀ d ∈ ds, d.Sound) (hunrelated : Unrelated s owner ds)
    (h : updateEdits s owner ds = .ok es) (hplan : Enacted owner s es s') {d : Draft} (hd : d ∈ ds)
    (hnone : s.rowAt? owner d.path = none → s'.rowAt? owner d.path = none) {r' : Row}
    (hr' : s'.rowAt? owner d.path = some r') : Settled s'.rows r' d := by
  cases hr : s.rowAt? owner d.path with
  | none => cases (hnone hr).symm.trans hr'
  | some r =>
      obtain ⟨x, hx, heq, hsettled⟩ := exists_settled hds hunrelated h hplan hd hr
      obtain ⟨-, howner, hpath⟩ := rowAt?_eq_some hr
      obtain ⟨hrow', howner', hpath'⟩ := rowAt?_eq_some hr'
      have hsame : x = r' := hplan.traces.sound.eq_of_path hx hrow'
        (by rw [heq, howner']; exact howner) (by rw [heq, hpath']; exact hpath)
      exact hsame ▸ hsettled

end

/-- An update of trees that succeeds carries its plan out. -/
theorem enacted_of_updateEdits {s s' : Store} {owner : Owner} {ds : List Draft} {es : List Edit}
    {summary : Summary} (hs : s.Sound) (hds : ∀ d ∈ ds, d.Sound) (hexact : ∀ d ∈ ds, d.Exact)
    (h : updateEdits s owner.id ds = .ok es)
    (hcommit : Change.commit s owner (.edits es) = (s', .ok summary)) :
    Enacted owner.id s es s' := by
  refine enacted_of_commit hs (updateEdits_planned hs hds h) (fun parent c hc => ?_) hcommit
  obtain ⟨d, hd, hwithin⟩ := from_of_updateEdits h _ hc
  exact (hexact d hd).within hwithin

/-! ## Renewal -/

/-- Trees that an update can make equal to the nodes listed for them: without
doubles, under different paths, no stored one below another, and none listed
inside another. -/
structure Renewable (s : Store) (owner : Owner) (nodes : List Node) : Prop where
  exact : ∀ n ∈ Node.listed nodes, n.Exact
  distinct : ((Node.listed nodes).map fun n => canonicalPath n.path).Nodup
  unnested : ∀ m ∈ Node.listed nodes, ∀ n ∈ Node.listed nodes, ∀ q r,
    s.listedRow? owner m = some q → s.listedRow? owner n = some r → AtOrBelow s.rows q r → q = r
  outside : ∀ m ∈ Node.listed nodes, ∀ n ∈ Node.listed nodes,
    canonicalPath m.path ≠ canonicalPath n.path →
    ∀ path ∈ n.pathsBelow, canonicalPath path ≠ canonicalPath m.path

/-- `Keeps rows r n q m`: down from the row `r` and the node `n`, the row `q`
and the node `m` stand under the same parents at the same paths. -/
inductive Keeps (rows : List Row) (r : Row) (n : Node) : Row → Node → Prop where
  | top : Keeps rows r n r n
  | child {q c : Row} {m k : Node} : Keeps rows r n q m → c ∈ rows → c.parent = some q.id →
      k ∈ m.children → canonicalPath k.path = c.path → Keeps rows r n c k

section

variable {s s' : Store} {owner : Owner} {nodes : List Node}

theorem Renewable.unrelated (h : Renewable s owner nodes) {ds : List Draft}
    (hds : Node.draftsOfAll nodes = .ok ds) : Unrelated s owner.id ds := by
  have hdrafted := forall₂_of_draftsOfAll hds
  refine ⟨map_canonicalPath_of_drafted hdrafted ▸ h.distinct, fun c hc d hd q r hq hr hbelow => ?_⟩
  obtain ⟨m, hm, hmc⟩ := exists_listed hdrafted hc
  obtain ⟨n, hn, hnd⟩ := exists_listed hdrafted hd
  exact h.unnested m hm n hn q r (by rw [hmc.listedRow?, hq]) (by rw [hnd.listedRow?, hr]) hbelow

theorem Renewable.draftsExact (h : Renewable s owner nodes) {ds : List Draft}
    (hds : Node.draftsOfAll nodes = .ok ds) : ∀ d ∈ ds, d.Exact := by
  intro d hd
  obtain ⟨n, hn, hvalid, hnd⟩ := exists_listed (forall₂_of_draftsOfAll hds) hd
  exact (node_of_ofNode n hvalid (h.exact n hn) hnd).2

theorem Renewable.path_not_mem_below (h : Renewable s owner nodes) {ds : List Draft}
    (hds : Node.draftsOfAll nodes = .ok ds) {c d : Draft} (hd : d ∈ ds) (hc : c ∈ ds)
    (hne : c.path ≠ d.path) : d.path ∉ Draft.pathsOfAll c.children := by
  intro hmem
  obtain ⟨m, hm, hmd⟩ := exists_listed (forall₂_of_draftsOfAll hds) hd
  obtain ⟨n, hn, hnc⟩ := exists_listed (forall₂_of_draftsOfAll hds) hc
  rw [pathsOfAll_children n hnc.2] at hmem
  obtain ⟨path, hpath, hcanonical⟩ := List.mem_map.mp hmem
  refine h.outside m hm n hn ?_ path hpath (hcanonical.trans hmd.path.symm)
  rw [hmd.path, hnc.path]
  exact hne.symm

/-- A row that a node keeps has its share of the plan. -/
theorem Keeps.exists_share {es : List Edit} {r q : Row} {n m : Node} {d : Draft} {own : List Edit}
    (h : Keeps s.rows r n q m) (hplan : Enacted owner.id s es s') (hn : n.Drafted d)
    (hexact : n.Exact) (hshare : Share owner.id s es r d own) :
    ∃ c own', m.Drafted c ∧ m.Exact ∧ Share owner.id s es q c own' := by
  induction h with
  | top => exact ⟨d, own, hn, hexact, hshare⟩
  | @child x c m k hx hc hparent hk hpath ih =>
      obtain ⟨e, own', hm, hmexact, hshare'⟩ := ih
      obtain ⟨f, hf, hkf⟩ := exists_drafted hm.forall₂ hk
      have hfpath : f.path = c.path := hkf.path.symm.trans hpath
      obtain ⟨own'', hshare''⟩ :=
        hshare'.child_of_path hplan (mem_childrenIn.mpr ⟨hc, hparent⟩) hf hfpath
      exact ⟨f, own'', hkf, hmexact.child hk, hshare''⟩

/-- The plan behind an update of trees that succeeds. -/
theorem exists_plan_of_updateTrees {access : Access} {summary : Summary}
    (h : s.write access owner (.updateTrees nodes) = (s', .ok summary)) :
    ∃ ds es, Node.draftsOfAll nodes = .ok ds ∧ updateEdits s owner.id ds = .ok es
      ∧ Change.commit s owner (.edits es) = (s', .ok summary) := by
  obtain ⟨change, hplan, hcommit⟩ := write_eq_ok h
  obtain ⟨ds, hds, hplan⟩ := bind_eq_ok_iff.mp hplan
  obtain ⟨es, hes, hplan⟩ := bind_eq_ok_iff.mp hplan
  cases hplan
  exact ⟨ds, es, hds, hes, hcommit⟩

/-- An update of trees that need no edit does nothing. -/
theorem updateTrees_of_settled {ds : List Draft} (hds : Node.draftsOfAll nodes = .ok ds)
    (h : ∀ d ∈ ds, ∀ r, s.rowAt? owner.id d.path = some r → Settled s.rows r d)
    (access : Access) : s.write access owner (.updateTrees nodes) = (s, .ok {}) := by
  have hplan : (Write.updateTrees nodes).plan s owner = .ok (.edits []) :=
    bind_eq_ok_iff.mpr ⟨ds, hds, bind_eq_ok_iff.mpr ⟨[], updateEdits_of_settled h, rfl⟩⟩
  rw [Store.write, hplan]
  simp only [Change.isWritten, List.isEmpty_nil, Bool.not_true, Bool.and_false]
  rfl

/-- An update of trees that succeeds makes each stored tree equal to the node
listed for it, with the rows that the node keeps.  Rows elsewhere and other
tables stay as they are, trees that were not stored still are not, and the
same update has nothing left to do. -/
theorem updateTrees_renews {access : Access} {summary : Summary} (hs : Reachable s)
    (h : Renewable s owner nodes)
    (hok : s.write access owner (.updateTrees nodes) = (s', .ok summary)) :
    (∀ n ∈ Node.listed nodes, ∀ r, s.listedRow? owner n = some r →
      ∀ q m, Keeps s.rows r n q m → (m.children.map fun k => canonicalPath k.path).Nodup
        ∧ ∃ q' ∈ s'.rows, q' = { q with attributes := q'.attributes }
          ∧ s'.node .all q' = .ok m.canonical)
    ∧ (∀ r ∈ s.rows, (∀ n ∈ Node.listed nodes, ∀ t, s.listedRow? owner n = some t →
      ¬AtOrBelow s.rows t r) → r ∈ s'.rows)
    ∧ (∀ r' ∈ s'.rows, r' ∈ s.rows ∨ ∃ n ∈ Node.listed nodes, ∃ t,
      s.listedRow? owner n = some t ∧ ∃ t', t'.id = t.id ∧ AtOrBelow s'.rows t' r')
    ∧ s' = { s with rows := s'.rows, lastRow := s'.lastRow }
    ∧ (∀ n ∈ Node.listed nodes, s.listedRow? owner n = none → s'.listedRow? owner n = none)
    ∧ s'.write access owner (.updateTrees nodes) = (s', .ok {}) := by
  obtain ⟨ds, es, hds, hes, hcommit⟩ := exists_plan_of_updateTrees hok
  have hdrafted := forall₂_of_draftsOfAll hds
  have hsound := sound_of_draftsOfAll hds
  have hunrelated := h.unrelated hds
  have hplan :=
    enacted_of_updateEdits (sound_of_reachable hs) hsound (h.draftsExact hds) hes hcommit
  have hnone : ∀ d ∈ ds, s.rowAt? owner.id d.path = none → s'.rowAt? owner.id d.path = none :=
    fun d hd => rowAt?_eq_none_of_new hsound hunrelated hes hplan
      fun c hc => h.path_not_mem_below hds hd hc
  refine ⟨fun n hn r hr q m hkeeps => ?_, fun r hr hout => ?_, fun r' hr' => ?_, ?_,
    fun n hn hr => ?_, ?_⟩
  · obtain ⟨d, hd, hnd⟩ := exists_drafted hdrafted hn
    rw [hnd.listedRow?] at hr
    obtain ⟨own, hshare⟩ := share_of_updateEdits hplan.before hsound hunrelated hes hd hr
    obtain ⟨c, own', hmc, hmexact, hshare'⟩ :=
      hkeeps.exists_share hplan hnd (h.exact n hn) hshare
    obtain ⟨q', hq', heq⟩ := hshare'.exists_row hplan
    obtain ⟨hnode, hcexact⟩ := node_of_ofNode m hmc.1 hmexact hmc.2
    have hsettled := settled_of_share hplan hshare'.sound hshare' hq' (by rw [heq])
    refine ⟨?_, q', hq', heq, ?_⟩
    · rw [map_canonicalPath_of_drafted hmc.forall₂]
      exact hshare'.nodup_children hplan
    · rw [← hnode]
      exact node_of_settled hplan.traces.sound hcexact hq' (by rw [heq]; exact hshare'.path)
        hsettled
  · refine hplan.mem_of_outside (confined_of_updateEdits hplan.before hsound hes) hr ?_
    rintro t ⟨d, hd, ht⟩
    obtain ⟨n, hn, hnd⟩ := exists_listed hdrafted hd
    exact hout n hn t (by rw [hnd.listedRow?, ht])
  · rcases mem_or_below hsound hes hplan hr' with hold | ⟨d, hd, t, ht, hbelow⟩
    · exact .inl hold
    · obtain ⟨n, hn, hnd⟩ := exists_listed hdrafted hd
      exact .inr ⟨n, hn, t, by rw [hnd.listedRow?, ht], hbelow⟩
  · rw [(inTurn_of_commit hcommit).2.2]
    exact inTurn_store_eq owner.id (inOrder es) s
  · obtain ⟨d, hd, hnd⟩ := exists_drafted hdrafted hn
    rw [hnd.listedRow?] at hr ⊢
    exact hnone d hd hr
  · exact updateTrees_of_settled hds
      (fun d hd r' => settled_again hsound hunrelated hes hplan hd (hnone d hd)) access

/-- A tree listed under a root marker, in which a row has moved up a level and
another has new leaves, beside a tree that is not stored. -/
theorem updateTrees_renews_of_moved_row :
    let owner : Owner := ⟨1, 1, "d", "o"⟩
    let leaf : Node := .mk "/a/b[ @k = \"1\" ]" [("x", .bool true)] []
    let moved : Node := .leafless "/a/c/d"
    let tree : Node := .mk "/a" [] [(leaf.path, leaf), (moved.path, moved)]
    let nodes : List Node := [.mk "/" [] [(tree.path, tree)], .leafless "/n"]
    ∃ s s' summary, Reachable s
      ∧ s.rows.map (fun r => (r.id, r.path, r.parent))
        = [(1, "/a", none), (2, "/a/b[@k='1']", some 1), (3, "/a/c", some 1),
          (4, "/a/c/d", some 3)]
      ∧ s.write .readWrite owner (.updateTrees nodes) = (s', .ok summary)
      ∧ s'.rows.map (fun r => (r.id, r.path, r.parent))
        = [(1, "/a", none), (2, "/a/b[@k='1']", some 1), (5, "/a/c/d", some 1)]
      ∧ (∃ r ∈ s'.rows, r.id = 1 ∧ s'.node .all r = .ok tree.canonical)
      ∧ s'.write .readWrite owner (.updateTrees nodes) = (s', .ok {}) := by
  intro owner leaf moved tree nodes
  let old : Node := .mk "/a" []
    [("/a/b[@k='1']", .leafless "/a/b[@k='1']"), ("/a/c", .mk "/a/c" [] [("/a/c/d", moved)])]
  have hreach := Reachable.empty
    |>.step .readWrite (.createDataspace "d")
    |>.step .readWrite (.createOwner ⟨1, "d"⟩ "o")
    |>.step .readWrite (.write owner (.store [old]))
  generalize hs : Request.run _ _ _ = s at hreach
  have hok : s.write .readWrite owner (.updateTrees nodes)
      = ((s.write .readWrite owner (.updateTrees nodes)).1,
        .ok { updated := 1, inserted := 1, deleted := 1 }) := by
    refine Prod.snd_eq_iff.mp ?_
    rw [← hs]
    decide +kernel
  have hlisted : Node.listed nodes = [tree, .leafless "/n"] := rfl
  have hstored : (s.listedRow? owner tree).map Row.id = some 1 := by
    rw [← hs]
    decide +kernel
  have hnew : s.listedRow? owner (.leafless "/n") = none := by
    rw [← hs]
    decide +kernel
  have hrenewable : Renewable s owner nodes := by
    refine { exact := ?_, distinct := ?_, unnested := ?_, outside := ?_ }
    · rw [hlisted]
      simp [tree, leaf, moved, Node.leafless, Node.Exact, Node.AllExact, Leaves.Exact, Json.Exact,
        Json.MembersExact, Keyed.Sorted]
    · rw [hlisted]
      decide +kernel
    · rw [hlisted]
      intro m hm n hn q r hq hr _
      rcases List.mem_pair.mp hm with rfl | rfl
      · rcases List.mem_pair.mp hn with rfl | rfl
        · exact Option.some.inj (hq.symm.trans hr)
        · cases hnew.symm.trans hr
      · cases hnew.symm.trans hq
    · rw [hlisted]
      decide +kernel
  have hrenews := updateTrees_renews hreach hrenewable hok
  refine ⟨s, _, _, hreach, ?_, hok, ?_, ?_, hrenews.2.2.2.2.2⟩
  · rw [← hs]
    decide +kernel
  · rw [← hs]
    decide +kernel
  · obtain ⟨r, hr, hid⟩ := Option.map_eq_some_iff.mp hstored
    have hmem : tree ∈ Node.listed nodes := List.mem_cons_self
    obtain ⟨-, r', hr', heq, hread⟩ := hrenews.1 tree hmem r hr r tree .top
    exact ⟨r', hr', by rw [heq]; exact hid, hread⟩

end

end DataTree
