import DataTree.Proofs.Store.Enacted

/-!
# The share of one row in a plan

A plan reconciles several rows, and the children of each row in turn.  No
edit leaves the subtree it was planned for, so what becomes of a row depends
on its own share of the plan alone, and after the whole plan its subtree is
settled on the draft it was reconciled with.

## Main definitions

* `Share` — the edits of a plan that are about one subtree.
* `Shares` — the edits of a plan that are about rows under one parent and the
  drafts that replace them.

## Main results

* `Share.shares`, `Shares.member` — the shares of the children that the draft
  keeps.
* `settled_of_share` — a row is settled once the plan is carried out.
* `Shares.exists_row_of_draft`, `Shares.exists_draft` — what is under the parent
  then.
-/

namespace DataTree

/-! ## Reconciling rows under one parent -/

section

variable {owner : Nat} {s : Store} {r : Row}

/-- Edits about the rows below two different rows under one parent differ. -/
theorem Edit.Inside.eq_of_siblings (hs : s.Sound) {e : Edit} {q x : Row}
    (hparent : q.parent = x.parent) (heq : e.Inside s.rows q) (hex : e.Inside s.rows x) :
    q = x := by
  obtain ⟨a, ha, hplace⟩ := heq
  obtain ⟨b, hb, hplace'⟩ := hex
  have hid : a.id = b.id := Option.some.inj (hplace.symm.trans hplace')
  rw [hs.eq_of_id ha.mem hb.mem hid] at ha
  exact ha.eq_of_siblings hb hs.ordered hparent

/-- None of them is about the parent itself. -/
theorem Edit.Inside.place_ne (hs : s.Sound) {e : Edit} {q : Row} (h : e.Inside s.rows q) :
    e.place? ≠ q.parent := by
  obtain ⟨a, ha, hplace⟩ := h
  rw [hplace]
  exact (ha.not_parent hs.ordered).symm

/-- A draft whose path no row has is inserted. -/
theorem mem_insert_of_new {rows : List Row} {parent : Option Nat} {ds : List Draft} {d : Draft}
    {stored : List Row} {es : List Edit} (h : reconcileChildren rows parent stored ds = .ok es)
    (hd : d ∈ ds) (hnew : ∀ q ∈ stored, q.path ≠ d.path) : .insert parent d ∈ es := by
  induction ds generalizing stored es with
  | nil => cases hd
  | cons c rest ih =>
      have hbut : ∀ q ∈ rowsBut stored c.path, q.path ≠ d.path :=
        fun q hq => hnew q (mem_rowsBut.mp hq).1
      cases hfind : rowWith? stored c.path with
      | none =>
          obtain ⟨more, hmore, rfl⟩ := (reconcileChildren_cons_of_new hfind).mp h
          rcases List.mem_cons.mp hd with rfl | hd
          · exact List.mem_cons_self
          · exact List.mem_cons_of_mem _ (ih hmore hd hbut)
      | some x =>
          obtain ⟨own, more, -, hmore, rfl⟩ := (reconcileChildren_cons_of_stored hfind).mp h
          obtain ⟨hx, hxpath⟩ := rowWith?_eq_some hfind
          rcases List.mem_cons.mp hd with rfl | hd
          · exact absurd hxpath (hnew x hx)
          · exact List.mem_append_right _ (ih hmore hd hbut)

/-- A row whose path no draft has is removed. -/
theorem mem_remove_of_gone {rows : List Row} {parent : Option Nat} {ds : List Draft} {q : Row}
    {stored : List Row} {es : List Edit} (h : reconcileChildren rows parent stored ds = .ok es)
    (hdistinct : Distinct stored) (hq : q ∈ stored) (hgone : ∀ d ∈ ds, d.path ≠ q.path) :
    .remove q.id q.path ∈ es := by
  induction ds generalizing stored es with
  | nil =>
      cases h
      have hentry : (q.path, q.id) ∈ stored.map fun r => (r.path, r.id) :=
        List.mem_map_of_mem hq
      obtain ⟨last, hlast⟩ := Keyed.exists_lastAt hentry
      obtain ⟨x, hx, heq⟩ := List.mem_map.mp (Keyed.mem_of_lastAt hlast)
      obtain ⟨hpath, rfl⟩ := Prod.mk.inj heq
      rw [hdistinct x hx q hq hpath, ← Keyed.find?_ofList,
        (Keyed.sorted_ofList _).find?_eq_some_iff] at hlast
      exact List.mem_map.mpr ⟨_, hlast, rfl⟩
  | cons c rest ih =>
      have hbut : q ∈ rowsBut stored c.path :=
        mem_rowsBut.mpr ⟨hq, (hgone c List.mem_cons_self).symm⟩
      have hrest := fun d hd => hgone d (List.mem_cons_of_mem c hd)
      cases hfind : rowWith? stored c.path with
      | none =>
          obtain ⟨more, hmore, rfl⟩ := (reconcileChildren_cons_of_new hfind).mp h
          exact List.mem_cons_of_mem _ (ih hmore (hdistinct.rowsBut _) hbut hrest)
      | some x =>
          obtain ⟨own, more, -, hmore, rfl⟩ := (reconcileChildren_cons_of_stored hfind).mp h
          exact List.mem_append_right _ (ih hmore (hdistinct.rowsBut _) hbut hrest)

/-- What holds of rows under a parent and of drafts that are to replace them. -/
structure Replaces (owner : Nat) (s : Store) (parent : Option Nat) (stored : List Row)
    (ds : List Draft) : Prop where
  rows : ∀ q ∈ stored, q ∈ s.rows ∧ q.owner = owner ∧ q.parent = parent
  drafts : ∀ d ∈ ds, d.Sound ∧ s.Carries owner parent d.path

namespace Replaces

variable {parent : Option Nat} {stored : List Row} {es : List Edit}

theorem tail {d : Draft} {rest : List Draft} (h : Replaces owner s parent stored (d :: rest)) :
    Replaces owner s parent (rowsBut stored d.path) rest :=
  ⟨fun q hq => h.rows q (mem_rowsBut.mp hq).1,
    fun c hc => h.drafts c (List.mem_cons_of_mem _ hc)⟩

variable {ds : List Draft}

theorem distinct (h : Replaces owner s parent stored ds) (hs : s.Sound) : Distinct stored := by
  intro q hq x hx hpath
  obtain ⟨hq, hqowner, -⟩ := h.rows q hq
  obtain ⟨hx, hxowner, -⟩ := h.rows x hx
  exact hs.eq_of_path hq hx (hqowner.trans hxowner.symm) hpath

/-- Each edit is about a row at or below one of the rows, or inserts a draft. -/
theorem planned (h : Replaces owner s parent stored ds) (hs : s.Sound)
    (hes : reconcileChildren s.rows parent stored ds = .ok es) : ∀ e ∈ es, e.Planned owner s
      ∧ ((∃ q ∈ stored, e.Inside s.rows q) ∨ ∃ d ∈ ds, e = .insert parent d) :=
  reconcileChildren_planned hs ds (fun q hq => ⟨(h.rows q hq).1, (h.rows q hq).2.1⟩) h.drafts hes

/-- No edit for some rows under a parent is about a row at or below another
one. -/
theorem not_inside (h : Replaces owner s parent stored ds) (hs : s.Sound)
    (hes : reconcileChildren s.rows parent stored ds = .ok es) {q : Row}
    (hq : q.parent = parent) (hother : q ∉ stored) : ∀ e ∈ es, ¬e.Inside s.rows q := by
  intro e he hinside
  obtain ⟨-, ⟨x, hx, hinside'⟩ | ⟨c, -, rfl⟩⟩ := h.planned hs hes e he
  · rw [hinside.eq_of_siblings hs (hq.trans (h.rows x hx).2.2.symm) hinside'] at hother
    exact hother hx
  · exact hinside.place_ne hs hq.symm

end Replaces

/-- A row that a draft keeps is reconciled with it, and no other edit for its
siblings is about a row at or below it. -/
theorem exists_share (hs : s.Sound) {parent : Option Nat} {ds : List Draft} {stored : List Row}
    {es : List Edit} (hreplaces : Replaces owner s parent stored ds)
    (h : reconcileChildren s.rows parent stored ds = .ok es) {q : Row} (hq : q ∈ stored)
    (hkept : ∃ d ∈ ds, d.path = q.path) :
    ∃ d ∈ ds, d.path = q.path ∧ ∃ own, reconcile s.rows q d = .ok own ∧ own.Sublist es
      ∧ ∀ e ∈ es, e.Inside s.rows q → e ∈ own := by
  induction ds generalizing stored es with
  | nil =>
      obtain ⟨d, hd, -⟩ := hkept
      cases hd
  | cons d rest ih =>
      obtain ⟨hrow, howner, hparent⟩ := hreplaces.rows q hq
      have hkept' : d.path ≠ q.path → ∃ c ∈ rest, c.path = q.path :=
        fun hne => ((List.exists_mem_cons_iff _ _ _).mp hkept).resolve_left hne
      cases hfind : rowWith? stored d.path with
      | none =>
          obtain ⟨more, hrest, rfl⟩ := (reconcileChildren_cons_of_new hfind).mp h
          have hne : q.path ≠ d.path := rowWith?_eq_none_iff.mp hfind q hq
          obtain ⟨c, hc, hcpath, own, hown, hsub, honly⟩ :=
            ih hreplaces.tail hrest (mem_rowsBut.mpr ⟨hq, hne⟩) (hkept' hne.symm)
          refine ⟨c, List.mem_cons_of_mem _ hc, hcpath, own, hown, hsub.cons _, ?_⟩
          exact List.forall_mem_cons.mpr
            ⟨fun hinside => absurd hparent.symm (hinside.place_ne hs), honly⟩
      | some x =>
          obtain ⟨own, more, hown, hrest, rfl⟩ := (reconcileChildren_cons_of_stored hfind).mp h
          obtain ⟨hx, hxpath⟩ := rowWith?_eq_some hfind
          obtain ⟨hxrow, hxowner, hxparent⟩ := hreplaces.rows x hx
          by_cases hpath : d.path = q.path
          · have hsame : x = q := hreplaces.distinct hs x hx q hq (hxpath.trans hpath)
            subst hsame
            have hother : x ∉ rowsBut stored d.path :=
              fun hmem => (mem_rowsBut.mp hmem).2 hxpath
            refine ⟨d, List.mem_cons_self, hpath, own, hown, List.sublist_append_left _ _,
              List.forall_mem_append.mpr ⟨fun _ he _ => he, fun e he hinside => ?_⟩⟩
            exact absurd hinside (hreplaces.tail.not_inside hs hrest hparent hother e he)
          · obtain ⟨c, hc, hcpath, own', hown', hsub, honly⟩ :=
              ih hreplaces.tail hrest (mem_rowsBut.mpr ⟨hq, Ne.symm hpath⟩) (hkept' hpath)
            refine ⟨c, List.mem_cons_of_mem _ hc, hcpath, own', hown',
              hsub.trans (List.sublist_append_right _ _),
              List.forall_mem_append.mpr ⟨fun e he hinside => ?_, honly⟩⟩
            have hinside' := (reconcile_planned hs d hxrow hxowner hxpath
              (hreplaces.drafts d List.mem_cons_self).1 hown e he).2
            have hsame := hinside.eq_of_siblings hs (hparent.trans hxparent.symm) hinside'
            exact absurd (hsame ▸ hxpath.symm) hpath

/-- Drafts under one parent have different paths, if those to be inserted do
and none of them has the path of a row that is kept. -/
theorem nodup_of_reconcileChildren {rows : List Row} {parent : Option Nat} {ds : List Draft}
    {stored : List Row} {es : List Edit} (h : reconcileChildren rows parent stored ds = .ok es)
    (hdistinct : (es.filterMap Edit.newPath?).Nodup)
    (hkept : ∀ q ∈ stored, (∃ d ∈ ds, d.path = q.path) → ∀ d, .insert parent d ∈ es →
      d.path ≠ q.path) : (ds.map Draft.path).Nodup := by
  induction ds generalizing stored es with
  | nil => exact List.nodup_nil
  | cons d rest ih =>
      have hkept' : ∀ {more : List Edit}, (∀ e ∈ more, e ∈ es) → ∀ q ∈ rowsBut stored d.path,
          (∃ c ∈ rest, c.path = q.path) → ∀ c, .insert parent c ∈ more → c.path ≠ q.path := by
        rintro more hsub q hq ⟨c, hc, hcpath⟩ e he
        exact hkept q (mem_rowsBut.mp hq).1 ⟨c, List.mem_cons_of_mem _ hc, hcpath⟩ e (hsub _ he)
      have htwice : ∀ {more : List Edit},
          reconcileChildren rows parent (rowsBut stored d.path) rest = .ok more →
          d.path ∈ rest.map Draft.path → ∃ c, c.path = d.path ∧ .insert parent c ∈ more := by
        intro more hmore hmem
        obtain ⟨c, hc, hcpath⟩ := List.mem_map.mp hmem
        refine ⟨c, hcpath, mem_insert_of_new hmore hc fun q hq heq => ?_⟩
        exact (mem_rowsBut.mp hq).2 (heq.trans hcpath)
      rw [List.map_cons, List.nodup_cons]
      cases hfind : rowWith? stored d.path with
      | none =>
          obtain ⟨more, hmore, rfl⟩ := (reconcileChildren_cons_of_new hfind).mp h
          have hnodup : (d.path :: more.filterMap Edit.newPath?).Nodup := hdistinct
          rw [List.nodup_cons] at hnodup
          refine ⟨fun hmem => ?_,
            ih hmore hnodup.2 (hkept' fun e he => List.mem_cons_of_mem _ he)⟩
          obtain ⟨c, hcpath, hc⟩ := htwice hmore hmem
          exact hnodup.1 (List.mem_filterMap.mpr ⟨_, hc, congrArg some hcpath⟩)
      | some q =>
          obtain ⟨own, more, -, hmore, rfl⟩ := (reconcileChildren_cons_of_stored hfind).mp h
          obtain ⟨hq, hqpath⟩ := rowWith?_eq_some hfind
          rw [List.filterMap_append, List.nodup_append] at hdistinct
          refine ⟨fun hmem => ?_,
            ih hmore hdistinct.2.1 (hkept' fun e he => List.mem_append_right _ he)⟩
          obtain ⟨c, hcpath, hc⟩ := htwice hmore hmem
          exact hkept q hq ⟨d, List.mem_cons_self, hqpath.symm⟩ c (List.mem_append_right _ hc)
            (hcpath.trans hqpath.symm)

/-! ## Shares -/

/-- The share of a row and a draft in a plan: `own` are the edits that
reconcile the two, the plan has no others about rows at or below the row, and
none of it removes the row. -/
structure Share (owner : Nat) (s : Store) (es : List Edit) (r : Row) (d : Draft)
    (own : List Edit) : Prop where
  row : r ∈ s.rows
  owner : r.owner = owner
  path : r.path = d.path
  sound : d.Sound
  plan : reconcile s.rows r d = .ok own
  sub : own.Sublist es
  only : ∀ e ∈ es, e.Inside s.rows r → e ∈ own
  kept : ∀ e ∈ es, ¬e.Removes s.rows r

/-- The shares of rows under a parent and of the drafts that replace them:
`below` are the edits that reconcile the two, the plan has no others about rows
at or below these rows, inserts nothing else under the parent, which was there
before, and removes nothing above the rows. -/
structure Shares (owner : Nat) (s : Store) (es : List Edit) (parent : Option Nat)
    (stored : List Row) (ds : List Draft) (below : List Edit) : Prop where
  replaces : Replaces owner s parent stored ds
  old : ∀ g, parent = some g → g ≤ s.lastRow
  plan : reconcileChildren s.rows parent stored ds = .ok below
  sub : below.Sublist es
  only : ∀ q ∈ stored, ∀ e ∈ es, e.Inside s.rows q → e ∈ below
  inserts : ∀ d, .insert parent d ∈ es → d ∈ ds
  kept : ∀ q ∈ stored, ∀ a, AtOrBelow s.rows a q → a ≠ q → ∀ path, .remove a.id path ∉ es

/-- The edits that reconcile a row do not remove it. -/
theorem not_mem_remove_self (hs : s.Sound) {d : Draft} {own : List Edit} (hr : r ∈ s.rows)
    (howner : r.owner = owner) (hpath : r.path = d.path) (hd : d.Sound)
    (h : reconcile s.rows r d = .ok own) (path : String) : .remove r.id path ∉ own := by
  intro hmem
  obtain ⟨path', attributes, children⟩ := d
  obtain ⟨leaves, below, hleaves, hbelow, rfl⟩ := reconcile_eq_ok_iff.mp h
  rcases List.mem_append.mp hmem with hmem | hmem
  · cases eq_update_of_mem_leafEdits hleaves hmem
  · obtain ⟨-, ⟨q, hq, hinside⟩ | ⟨c, -, heq⟩⟩ := reconcileChildren_planned hs children
      (fun q hq => ⟨(mem_childrenIn.mp hq).1, (owner_of_child hs hr hq).trans howner⟩)
      (fun c hc => ⟨hd.child hc, carries_child hr howner hpath hd hc⟩) hbelow _ hmem
    · exact hinside.place_ne hs (mem_childrenIn.mp hq).2.symm
    · cases heq

/-- A plan for rows under one parent and nothing else is all shares of these
rows. -/
theorem Replaces.shares {parent : Option Nat} {stored : List Row} {ds : List Draft}
    {es : List Edit} (h : Replaces owner s parent stored ds) (hs : s.Sound)
    (hold : ∀ g, parent = some g → g ≤ s.lastRow)
    (hes : reconcileChildren s.rows parent stored ds = .ok es) :
    Shares owner s es parent stored ds es where
  replaces := h
  old := hold
  plan := hes
  sub := .refl es
  only := fun _ _ _ he _ => he
  inserts := by
    intro d hd
    obtain ⟨-, ⟨q, hq, hinside⟩ | ⟨c, hc, heq⟩⟩ := h.planned hs hes _ hd
    · exact absurd (h.rows q hq).2.2.symm (hinside.place_ne hs)
    · cases heq
      exact hc
  kept := by
    intro q hq a ha hne path hmem
    obtain ⟨-, ⟨x, hx, y, hy, hplace⟩ | ⟨c, -, heq⟩⟩ := h.planned hs hes _ hmem
    · -- the row removed is at or below `x`, so `q` is below its sibling `x`
      rw [← hs.eq_of_id ha.mem_top hy.mem (Option.some.inj hplace)] at hy
      obtain rfl := (hy.trans ha).eq_of_sibling hs.ordered
        ((h.rows x hx).2.2.trans (h.rows q hq).2.2.symm)
      exact hne (hs.eq_of_id ha.mem_top ha.mem
        (Nat.le_antisymm (ha.le hs.ordered) (hy.le hs.ordered)))
    · cases heq

/-- The share of a row that the drafts keep. -/
theorem Shares.member {es below : List Edit} {parent : Option Nat} {stored : List Row}
    {ds : List Draft} (h : Shares owner s es parent stored ds below) (hs : s.Sound) {q : Row}
    (hq : q ∈ stored) (hkept : ∃ c ∈ ds, c.path = q.path) :
    ∃ c ∈ ds, c.path = q.path ∧ ∃ own, Share owner s es q c own := by
  obtain ⟨hrow, howner, -⟩ := h.replaces.rows q hq
  obtain ⟨c, hc, hpath, own, hown, hsub, honly⟩ := exists_share hs h.replaces h.plan hq hkept
  have hc' : c.Sound := (h.replaces.drafts c hc).1
  have honly' : ∀ e ∈ es, e.Inside s.rows q → e ∈ own :=
    fun e he hinside => honly e (h.only q hq e he hinside) hinside
  refine ⟨c, hc, hpath, own, hrow, howner, hpath.symm, hc', hown, hsub.trans h.sub, honly', ?_⟩
  rintro e he ⟨a, ha, path, rfl⟩
  by_cases hsame : a = q
  · subst hsame
    exact not_mem_remove_self hs hrow howner hpath.symm hc' hown path
      (honly' _ he ⟨a, .self hrow, rfl⟩)
  · exact h.kept q hq a ha hsame path he

namespace Share

variable {es own : List Edit} {d : Draft}

/-- The edits of a share are those of the leaves and those of the children. -/
theorem parts (h : Share owner s es r d own) :
    ∃ leaves below, leafEdits r d.attributes = .ok leaves
      ∧ reconcileChildren s.rows (some r.id) (childrenIn s.rows r) d.children = .ok below
      ∧ own = leaves ++ below := by
  have hplan := h.plan
  obtain ⟨path, attributes, children⟩ := d
  exact reconcile_eq_ok_iff.mp hplan

theorem replaces (h : Share owner s es r d own) (hs : s.Sound) :
    Replaces owner s (some r.id) (childrenIn s.rows r) d.children where
  rows := fun _ hq => ⟨(mem_childrenIn.mp hq).1, (owner_of_child hs h.row hq).trans h.owner,
    (mem_childrenIn.mp hq).2⟩
  drafts := fun _ hc => ⟨h.sound.child hc, carries_child h.row h.owner h.path h.sound hc⟩

/-- The shares of the children in the share of a row. -/
theorem shares (h : Share owner s es r d own) (hs : s.Sound) :
    ∃ below, Shares owner s es (some r.id) (childrenIn s.rows r) d.children below := by
  obtain ⟨leaves, below, hleaves, hbelow, rfl⟩ := h.parts
  have hreplaces := h.replaces hs
  refine ⟨below, hreplaces, ?_, hbelow, (List.sublist_append_right _ _).trans h.sub, ?_, ?_, ?_⟩
  · intro g hg
    cases hg
    exact hs.fresh r h.row
  · intro q hq e he hinside
    obtain ⟨hqrow, hqparent⟩ := mem_childrenIn.mp hq
    have hbelowRow : AtOrBelow s.rows r q := .step (.self h.row) hqrow hqparent
    rcases List.mem_append.mp (h.only e he (hinside.mono hbelowRow)) with hmem | hmem
    · rw [eq_update_of_mem_leafEdits hleaves hmem] at hinside
      exact absurd hqparent.symm (hinside.place_ne hs)
    · exact hmem
  · intro c hc
    rcases List.mem_append.mp (h.only _ hc ⟨r, .self h.row, rfl⟩) with hmem | hmem
    · cases eq_update_of_mem_leafEdits hleaves hmem
    · obtain ⟨-, ⟨q, hq, hinside⟩ | ⟨c', hc', heq⟩⟩ := hreplaces.planned hs hbelow _ hmem
      · exact absurd (mem_childrenIn.mp hq).2.symm (hinside.place_ne hs)
      · cases heq
        exact hc'
  · intro q hq a ha hne path hmem
    obtain ⟨x, hax, hparent⟩ := ha.eq_or_step.resolve_left hne
    have hid : x.id = r.id := Option.some.inj (hparent.symm.trans (mem_childrenIn.mp hq).2)
    rw [hs.eq_of_id hax.mem h.row hid] at hax
    exact h.kept _ hmem ⟨a, hax, path, rfl⟩

end Share

/-! ## After the plan -/

variable {es : List Edit} {s' : Store}

/-- The row of a share is there afterwards, perhaps with other leaves. -/
theorem Share.exists_row {d : Draft} {own : List Edit} (h : Share owner s es r d own)
    (hplan : Enacted owner s es s') : ∃ r' ∈ s'.rows, r' = { r with attributes := r'.attributes } :=
  hplan.exists_row h.row h.kept

/-- Its leaves are those of the draft. -/
theorem Share.leafEdits_eq_nil {d : Draft} {own : List Edit} (h : Share owner s es r d own)
    (hplan : Enacted owner s es s') {r' : Row} (hr' : r' ∈ s'.rows) (hid : r'.id = r.id) :
    leafEdits r' d.attributes = .ok [] := by
  obtain ⟨leaves, below, hleaves, hbelow, rfl⟩ := h.parts
  obtain ⟨old, new, hold, hnew, heq⟩ := leafEdits_eq_ok_iff.mp hleaves
  rcases hplan.traces.leaves r h.row r' hr' hid with ⟨hsame, hnone⟩ | ⟨e, he, hupdates⟩
  · by_cases hvalues : Leaves.same old new = true
    · exact leafEdits_eq_nil_iff.mpr ⟨old, new, hsame ▸ hold, hnew, hvalues⟩
    · rw [if_neg hvalues] at heq
      have hmem : Edit.update r.id r.path r.attributes d.attributes ∈ es :=
        h.sub.subset (List.mem_append_left _ (by rw [heq]; exact List.mem_singleton.mpr rfl))
      exact absurd (Edit.updates_update_iff.mpr ⟨rfl, rfl⟩) (hnone _ hmem d.attributes)
  · obtain ⟨path, expected, rfl⟩ := hupdates
    rcases List.mem_append.mp (h.only _ he ⟨r, .self h.row, rfl⟩) with hmem | hmem
    · injection eq_update_of_mem_leafEdits hleaves hmem with _ _ _ hattributes
      refine leafEdits_eq_nil_iff.mpr ⟨new, new, ?_, hnew, Leaves.same_self new⟩
      rw [hattributes]
      exact hnew
    · obtain ⟨-, ⟨q, hq, hinside⟩ | ⟨c, -, hinsert⟩⟩ :=
        (h.replaces hplan.before).planned hplan.before hbelow _ hmem
      · exact absurd (mem_childrenIn.mp hq).2.symm (hinside.place_ne hplan.before)
      · cases hinsert

namespace Shares

variable {parent : Option Nat} {stored : List Row} {ds : List Draft} {below : List Edit}

/-- The drafts have different paths. -/
theorem nodup (h : Shares owner s es parent stored ds below) (hplan : Enacted owner s es s') :
    (ds.map Draft.path).Nodup := by
  refine nodup_of_reconcileChildren h.plan
    (hplan.planted.distinct.sublist (h.sub.filterMap Edit.newPath?)) fun q hq hkept c hc => ?_
  obtain ⟨_, _, _, _, hshare⟩ := h.member hplan.before hq hkept
  obtain ⟨q', hq', heq⟩ := hshare.exists_row hplan
  have hnew := hplan.path_ne_of_insert (h.sub.subset hc) hq'
    (by rw [heq]; exact hplan.before.fresh q hshare.row) (by rw [heq]; exact hshare.owner)
  rw [heq] at hnew
  exact hnew

/-- The share of a row that has the path of a draft. -/
theorem member_of_path (h : Shares owner s es parent stored ds below)
    (hplan : Enacted owner s es s') {q : Row} (hq : q ∈ stored) {c : Draft} (hc : c ∈ ds)
    (hpath : c.path = q.path) : ∃ own, Share owner s es q c own := by
  obtain ⟨c', hc', hpath', hshare⟩ := h.member hplan.before hq ⟨c, hc, hpath⟩
  rw [List.inj_on_of_nodup_map (h.nodup hplan) hc hc' (hpath.trans hpath'.symm)]
  exact hshare

/-- Each draft has a settled row under the parent afterwards, if the shares of
kept rows leave these settled. -/
theorem exists_row_of_draft (h : Shares owner s es parent stored ds below)
    (hplan : Enacted owner s es s') {c : Draft} (hc : c ∈ ds)
    (hsettled : ∀ q own, Share owner s es q c own → ∀ q' ∈ s'.rows, q'.id = q.id →
      Settled s'.rows q' c) :
    ∃ q' ∈ s'.rows, q'.owner = owner ∧ q'.parent = parent ∧ q'.path = c.path
      ∧ Settled s'.rows q' c := by
  by_cases hstored : ∃ q ∈ stored, q.path = c.path
  · obtain ⟨q, hq, hqpath⟩ := hstored
    obtain ⟨own, hshare⟩ := h.member_of_path hplan hq hc hqpath.symm
    obtain ⟨q', hq', heq⟩ := hshare.exists_row hplan
    obtain ⟨-, howner, hparent⟩ := h.replaces.rows q hq
    exact ⟨q', hq', by rw [heq]; exact howner, by rw [heq]; exact hparent,
      by rw [heq]; exact hqpath, hsettled q own hshare q' hq' (by rw [heq])⟩
  · have hnew : ∀ q ∈ stored, q.path ≠ c.path := fun q hq hqpath => hstored ⟨q, hq, hqpath⟩
    have hinsert : Edit.insert parent c ∈ es := h.sub.subset (mem_insert_of_new h.plan hc hnew)
    obtain ⟨q', hq', -, howner, hparent, hpath, hsettled'⟩ := hplan.planted.top _ c hinsert
    exact ⟨q', hq', howner, hparent, hpath, hsettled'⟩

/-- A row that is under the parent afterwards has the path of a draft, unless it
was there before beside the rows replaced. -/
theorem exists_draft (h : Shares owner s es parent stored ds below)
    (hplan : Enacted owner s es s') {q' : Row} (hq' : q' ∈ s'.rows) (hparent : q'.parent = parent)
    (hstored : ∀ q ∈ s.rows, q' = { q with attributes := q'.attributes } → q ∈ stored) :
    ∃ c ∈ ds, q'.path = c.path := by
  by_cases hold : q'.id ≤ s.lastRow
  · obtain ⟨q, hq, heq⟩ := hplan.traces.rows q' hq' hold
    by_contra hgone
    have hpath : q'.path = q.path := by rw [heq]
    have hremove : Edit.remove q.id q.path ∈ es := by
      refine h.sub.subset (mem_remove_of_gone h.plan (h.replaces.distinct hplan.before)
        (hstored q hq heq) fun c hc hcpath => ?_)
      exact hgone ⟨c, hc, hpath.trans hcpath.symm⟩
    have hrow : s'.hasRow q.id = true := Store.hasRow_iff.mpr ⟨q', hq', by rw [heq]⟩
    exact (hplan.traces.stays q hq).mp hrow _ hremove ⟨q, .self hq, q.path, rfl⟩
  · rcases hplan.planted.new q' hq' (by omega) with ⟨g, hg, hnew⟩ | ⟨c, hc, hpath, -⟩
    · have := h.old g (hparent.symm.trans hg)
      omega
    · rw [hparent] at hc
      exact ⟨c, h.inserts c hc, hpath⟩

end Shares

namespace Share

variable {own : List Edit} {d : Draft}

/-- The children of the draft have different paths. -/
theorem nodup_children (h : Share owner s es r d own) (hplan : Enacted owner s es s') :
    (d.children.map Draft.path).Nodup := by
  obtain ⟨below, hshares⟩ := h.shares hplan.before
  exact hshares.nodup hplan

/-- The share of a child that the draft keeps, which has its path. -/
theorem child_of_path (h : Share owner s es r d own) (hplan : Enacted owner s es s') {q : Row}
    (hq : q ∈ childrenIn s.rows r) {c : Draft} (hc : c ∈ d.children) (hpath : c.path = q.path) :
    ∃ own', Share owner s es q c own' := by
  obtain ⟨below, hshares⟩ := h.shares hplan.before
  exact hshares.member_of_path hplan hq hc hpath

end Share

/-- Once the plan is carried out, the row of a share is settled. -/
theorem settled_of_share (hplan : Enacted owner s es s') {d : Draft} (hd : d.Sound)
    {own : List Edit} (h : Share owner s es r d own) {r' : Row} (hr' : r' ∈ s'.rows)
    (hid : r'.id = r.id) : Settled s'.rows r' d := by
  induction hd generalizing r own r' with
  | @mk path attributes children hpath hroot hextends hchildren ih =>
      obtain ⟨below, hshares⟩ := h.shares hplan.before
      have hdistinct := distinct_childrenIn hplan.traces.sound hr'
      refine settled_of_parts (h.leafEdits_eq_nil hplan hr' hid) ?_ hdistinct
      refine ⟨hshares.nodup hplan, fun c hc => ?_, fun q' hq' => ?_⟩
      · obtain ⟨q', hq', -, hqparent, hqpath, hsettled⟩ := hshares.exists_row_of_draft hplan hc
          fun q own' hshare q' hq' hqid => ih c hc hshare hq' hqid
        rw [← hid] at hqparent
        exact ⟨q', mem_childrenIn.mpr ⟨hq', hqparent⟩, hqpath, hsettled⟩
      · obtain ⟨hq', hqparent⟩ := mem_childrenIn.mp hq'
        rw [hid] at hqparent
        refine hshares.exists_draft hplan hq' hqparent fun q hq heq => mem_childrenIn.mpr ⟨hq, ?_⟩
        rw [heq] at hqparent
        exact hqparent

end

end DataTree
