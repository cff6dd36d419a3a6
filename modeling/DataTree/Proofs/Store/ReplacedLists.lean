import DataTree.Proofs.Store.Lossless
import DataTree.Proofs.Store.Operations
import DataTree.Proofs.Store.Replacement

/-!
# Reading replaced lists

After a list was replaced, the node it hangs under reads as before but for the
list, which has exactly the elements given.  Rows outside the list read as
before unless the list hangs below them.  For a list of roots the same is true
of the roots of the owner.

## Main definitions

* `Node.isInList` — whether a node is one of a list.
* `Node.withList` — a node with the elements of one list replaced.

## Main results

* `ListReplaced.node_apart` — rows that the list is not below read as before.
* `ListReplaced.nodes` — the nodes beside the list, and its elements.
* `replaceList_replaces` — what the replacement of a list does.
-/

namespace DataTree

open DataTree.Path

namespace Node

/-- Whether the path of a node starts like those of the elements of a list. -/
def isInList (address : String) (n : Node) : Bool := n.path.startsWith (address ++ "[")

/-- The node in which exactly `elements` are the children of one list. -/
def withList (address : String) (elements : List Node) (n : Node) : Node :=
  (mk n.path n.leaves []).addChildren
    ((n.children.filter fun c => !c.isInList address) ++ elements)

/-- Children of which those beside the list are kept, and the others are the
elements, are those of the node with the list replaced. -/
theorem withList_of_perm (path : String) (leaves : Leaves) {address : String}
    {before after elements : List Node} (hbefore : (before.map Node.path).Nodup)
    (hafter : (after.map Node.path).Nodup)
    (hothers : (after.filter fun n => !n.isInList address)
      = before.filter fun n => !n.isInList address)
    (helements : (after.filter fun n => n.isInList address).Perm elements) :
    mk path leaves (Keyed.ofList (after.map fun n => (n.path, n)))
      = (mk path leaves (Keyed.ofList (before.map fun n => (n.path, n)))).withList address
        elements := by
  have hkeys : ∀ {ns : List Node}, (ns.map Node.path).Nodup →
      ((ns.map fun n => (n.path, n)).map (·.1)).Nodup := by
    intro ns hns
    rw [List.map_map]
    exact hns
  have hchildren : (Keyed.ofList (before.map fun n => (n.path, n))).values.Perm before := by
    have hperm := (Keyed.ofList_perm (hkeys hbefore)).map (·.2)
    rw [List.map_map] at hperm
    simpa [Keyed.values, Function.comp_def] using hperm
  have hsplit : ((after.filter fun n => !n.isInList address)
      ++ after.filter fun n => n.isInList address).Perm after :=
    List.perm_append_comm.trans (List.filter_append_perm _ after)
  rw [hothers] at hsplit
  have hperm := ((hchildren.filter fun n => !n.isInList address).append helements.symm).trans hsplit
  have hkeyed := Keyed.ofList_eq_of_perm (hperm.symm.map fun n => (n.path, n)) (hkeys hafter)
  rw [withList, addChildren_eq, ← Keyed.ofList]
  exact congrArg (mk path leaves) hkeyed

theorem path_canonical (n : Node) : n.canonical.path = canonicalPath n.path := by
  obtain ⟨path, leaves, children⟩ := n
  rw [canonical]
  rfl

end Node

/-- A row reads alike in two stores that have the same rows at and below it. -/
theorem node_congr_below {s s' : Store} (hs : s.Sound) (hs' : s'.Sound) {q : Row} (hq : q ∈ s.rows)
    (hkept : ∀ r, AtOrBelow s.rows q r → r ∈ s'.rows)
    (hclosed : ∀ r c, AtOrBelow s.rows q r → c ∈ s'.rows → c.parent = some r.id → c ∈ s.rows)
    (fetch : Fetch) : s'.node fetch q = s.node fetch q := by
  classical
  have hrows : s'.rows.filter (fun r => decide (AtOrBelow s.rows q r))
      = s.rows.filter fun r => decide (AtOrBelow s.rows q r) := by
    refine eq_of_ids (hs'.ids.filter _) (hs.ids.filter _) fun r => ?_
    simp only [List.mem_filter, decide_eq_true_eq]
    constructor
    · rintro ⟨-, hr⟩
      exact ⟨hr.mem, hr⟩
    · rintro ⟨-, hr⟩
      exact ⟨hkept r hr, hr⟩
  -- both read as the store of these rows alone
  let K (id : Nat) : Prop := ∃ r, AtOrBelow s.rows q r ∧ r.id = id
  let t : Store := { s with rows := s.rows.filter fun r => decide (AtOrBelow s.rows q r) }
  have hbefore : t.node fetch q = s.node fetch q := by
    refine node_of_filter (K := K) rfl ?_ fetch ⟨q, .self hq, rfl⟩
    rintro c hc g hg ⟨r, hr, rfl⟩
    have hqc := hr.step hc hg
    exact ⟨decide_eq_true hqc, c, hqc, rfl⟩
  have hafter : t.node fetch q = s'.node fetch q := by
    refine node_of_filter (K := K) hrows.symm ?_ fetch ⟨q, .self hq, rfl⟩
    rintro c hc g hg ⟨r, hr, rfl⟩
    have hqc := hr.step (hclosed r c hr hc hg) hg
    exact ⟨decide_eq_true hqc, c, hqc, rfl⟩
  rw [← hafter, hbefore]

namespace ListReplaced

section

variable {owner : Nat} {parent : Option Nat} {address : String} {elements : List Node}
  {s s' : Store}

/-! ## Rows that the list is not below -/

/-- What is above a row outside the list is above it still. -/
theorem above_before (h : ListReplaced owner parent address elements s s') (hs : s.Sound)
    (hs' : s'.Sound) {a r : Row} (ha : AtOrBelow s'.rows a r) (hr : r ∈ s.rows)
    (hout : s.OutsideList owner parent address r) : AtOrBelow s.rows a r := by
  induction ha with
  | self _ => exact .self hr
  | @step q r haq _ hparent ih =>
      obtain ⟨p, hp, hid, -⟩ := hs.linked r hr q.id hparent
      have hpr : AtOrBelow s.rows p r := (AtOrBelow.self hp).step hr (by rw [hid]; exact hparent)
      have hpout : s.OutsideList owner parent address p :=
        fun t ht hbelow => hout t ht (hbelow.trans hpr)
      obtain rfl := hs'.eq_of_id (h.outside p hp hpout) haq.mem hid
      exact (ih hp hpout).step hr hparent

/-- What hangs under a row outside the list, which the list does not hang under,
was there before. -/
theorem child_before (h : ListReplaced owner parent address elements s s') (hs : s.Sound)
    (hs' : s'.Sound) {r c : Row} (hr : r ∈ s.rows) (hout : s.OutsideList owner parent address r)
    (hne : parent ≠ some r.id) (hc : c ∈ s'.rows) (hparent : c.parent = some r.id) :
    c ∈ s.rows := by
  rcases h.inside c hc with hold | ⟨t, ht, htc⟩
  · exact hold
  · exfalso
    obtain ⟨-, howner, htparent, hlead⟩ := Store.mem_listRows.mp ht
    rcases htc.eq_or_step with rfl | ⟨x, htx, hx⟩
    · exact hne (htparent.symm.trans hparent)
    · obtain rfl := hs'.eq_of_id (h.outside r hr hout) htx.mem
        (Option.some.inj (hparent.symm.trans hx))
      have htr := h.above_before hs hs' htx hr hout
      exact hout t (Store.mem_listRows.mpr ⟨htr.mem_top, howner, htparent, hlead⟩) htr

/-- Rows outside the list that it is not below read as before, to every
depth. -/
theorem node_apart (h : ListReplaced owner parent address elements s s') (hs : s.Sound)
    (hs' : s'.Sound) {q : Row} (hq : q ∈ s.rows) (hout : s.OutsideList owner parent address q)
    (hapart : ∀ r ∈ s.rows, parent = some r.id → ¬AtOrBelow s.rows q r) (fetch : Fetch) :
    s'.node fetch q = s.node fetch q := by
  have hbelow : ∀ r, AtOrBelow s.rows q r → s.OutsideList owner parent address r := by
    intro r hr t ht htr
    rcases htr.linear hr hs.ordered with htq | hqt
    · exact hout t ht htq
    · rcases hqt.eq_or_step with rfl | ⟨p, hp, hparent⟩
      · exact hout q ht (.self hq)
      · exact hapart p hp.mem ((Store.mem_listRows.mp ht).2.2.1.symm.trans hparent) hp
  refine node_congr_below hs hs' hq (fun r hr => h.outside r hr.mem (hbelow r hr)) ?_ fetch
  intro r c hr hc hparent
  exact h.child_before hs hs' hr.mem (hbelow r hr) (fun hg => hapart r hr.mem hg hr) hc hparent

/-! ## Rows beside the list -/

/-- The rows beside the list are those that were there, and read alike. -/
theorem beside (h : ListReplaced owner parent address elements s s') (hs : s.Sound)
    (hs' : s'.Sound) :
    ((s'.childRows owner parent).filter fun r => !r.path.startsWith (address ++ "["))
        = ((s.childRows owner parent).filter fun r => !r.path.startsWith (address ++ "["))
      ∧ ∀ q ∈ s.childRows owner parent, q.path.startsWith (address ++ "[") = false →
        ∀ fetch, s'.node fetch q = s.node fetch q := by
  have houtside : ∀ q, q.parent = parent → q.path.startsWith (address ++ "[") = false →
      s.OutsideList owner parent address q := by
    intro q hparent hlead t ht hbelow
    obtain ⟨-, -, htparent, htlead⟩ := Store.mem_listRows.mp ht
    obtain rfl := hbelow.eq_of_sibling hs.ordered (htparent.trans hparent.symm)
    cases htlead.symm.trans hlead
  constructor
  · refine eq_of_ids ((hs'.ids.filter _).filter _) ((hs.ids.filter _).filter _) fun q => ?_
    simp only [List.mem_filter, Store.mem_childRows, Bool.not_eq_true']
    constructor
    · rintro ⟨⟨hq, howner, hparent⟩, hlead⟩
      refine ⟨⟨?_, howner, hparent⟩, hlead⟩
      rcases h.inside q hq with hold | ⟨t', ht', hbelow⟩
      · exact hold
      · obtain ⟨-, -, htparent, htlead⟩ := Store.mem_listRows.mp ht'
        obtain rfl := hbelow.eq_of_sibling hs'.ordered (htparent.trans hparent.symm)
        cases htlead.symm.trans hlead
    · rintro ⟨⟨hq, howner, hparent⟩, hlead⟩
      exact ⟨⟨h.outside q hq (houtside q hparent hlead), howner, hparent⟩, hlead⟩
  · intro q hq hlead fetch
    obtain ⟨hrow, -, hparent⟩ := Store.mem_childRows.mp hq
    refine h.node_apart hs hs' hrow (houtside q hparent hlead) (fun r _ hr hbelow => ?_) fetch
    exact hbelow.not_parent hs.ordered (hparent.trans hr)

/-- A row of the list reads as one of the elements. -/
theorem exists_element (h : ListReplaced owner parent address elements s s') (hs' : s'.Sound)
    {q' : Row} (hq' : q' ∈ s'.listRows owner parent address) :
    ∃ n ∈ elements, s'.node .all q' = .ok n.canonical := by
  obtain ⟨n, hn, hpath⟩ := h.only q' hq'
  obtain ⟨x, hx, hxpath, hread, -⟩ := h.stored n hn
  obtain rfl := distinct_listRows hs' x hx q' hq' (hxpath.trans hpath.symm)
  exact ⟨n, hn, hread⟩

/-- Every row under the parent of the list can be read. -/
theorem exists_node (h : ListReplaced owner parent address elements s s') (hs : s.Sound)
    (hs' : s'.Sound) (hplain : s.Plain) {q : Row} (hq : q ∈ s'.childRows owner parent) :
    ∃ n, s'.node .all q = .ok n := by
  cases hlead : q.path.startsWith (address ++ "[") with
  | true =>
      obtain ⟨hrow, howner, hparent⟩ := Store.mem_childRows.mp hq
      obtain ⟨n, -, hn⟩ := h.exists_element hs' (Store.mem_listRows.mpr
        ⟨hrow, howner, hparent, hlead⟩)
      exact ⟨n.canonical, hn⟩
  | false =>
      obtain ⟨hbeside, hsame⟩ := h.beside hs hs'
      have hold : q ∈ (s.childRows owner parent).filter
          fun r => !r.path.startsWith (address ++ "[") := by
        rw [← hbeside]
        exact List.mem_filter.mpr ⟨hq, by rw [hlead]; rfl⟩
      have hq' := List.mem_of_mem_filter hold
      rw [hsame q hq' hlead]
      exact hplain.exists_node .all (Store.mem_childRows.mp hq').1

/-- The nodes beside the list are as they were. -/
theorem nodes_beside (h : ListReplaced owner parent address elements s s') (hs : s.Sound)
    (hs' : s'.Sound) {before after : List Node}
    (hbefore : (s.childRows owner parent).mapM (s.node .all) = .ok before)
    (hafter : (s'.childRows owner parent).mapM (s'.node .all) = .ok after) :
    (after.filter fun n => !n.isInList address) = before.filter fun n => !n.isInList address := by
  obtain ⟨hbeside, hsame⟩ := h.beside hs hs'
  have hbefore' := mapM_node_filter hbefore fun path => !path.startsWith (address ++ "[")
  have hafter' := mapM_node_filter hafter fun path => !path.startsWith (address ++ "[")
  have hsame' : ∀ q ∈ (s.childRows owner parent).filter
      (fun r => !r.path.startsWith (address ++ "[")), s'.node .all q = s.node .all q := by
    intro q hq
    obtain ⟨hq, hlead⟩ := List.mem_filter.mp hq
    exact hsame q hq (by simpa using hlead) .all
  rw [hbeside, mapM_congr hsame', hbefore'] at hafter'
  exact (Except.ok.inj hafter').symm

/-- The nodes of the list are the elements. -/
theorem nodes_perm (h : ListReplaced owner parent address elements s s') (hs' : s'.Sound)
    {after : List Node} (hafter : (s'.childRows owner parent).mapM (s'.node .all) = .ok after) :
    (after.filter fun n => n.isInList address).Perm (elements.map Node.canonical) := by
  have hlist := mapM_node_filter hafter fun path => path.startsWith (address ++ "[")
  change (s'.listRows owner parent address).mapM (s'.node .all)
    = .ok (after.filter fun n => n.isInList address) at hlist
  refine (List.perm_ext_iff_of_nodup ?_ ?_).mpr fun m => ?_
  · refine List.Nodup.of_map Node.path ?_
    rw [map_path_of_mapM_node hlist]
    have hrows : (s'.listRows owner parent address).Nodup := (hs'.nodup.filter _).filter _
    exact hrows.map_on fun q hq r hr => distinct_listRows hs' q hq r hr
  · refine List.Nodup.of_map Node.path ?_
    rw [List.map_map]
    simpa only [Function.comp_def, Node.path_canonical] using h.distinct
  · rw [List.mem_map]
    constructor
    · intro hm
      obtain ⟨q', hq', hread⟩ := exists_of_mapM_eq_ok hlist hm
      obtain ⟨n, hn, hread'⟩ := h.exists_element hs' hq'
      exact ⟨n, hn, Except.ok.inj (hread'.symm.trans hread)⟩
    · rintro ⟨n, hn, rfl⟩
      obtain ⟨q', hq', -, hread, -⟩ := h.stored n hn
      exact mem_of_mapM_eq_ok hlist hq' hread

/-- The nodes under the parent of the list: those beside it are as they were, and
the others are the elements. -/
theorem nodes (h : ListReplaced owner parent address elements s s') (hs : s.Sound)
    (hs' : s'.Sound) (hplain : s.Plain) :
    ∃ before after, (s.childRows owner parent).mapM (s.node .all) = .ok before
      ∧ (s'.childRows owner parent).mapM (s'.node .all) = .ok after
      ∧ (after.filter fun n => !n.isInList address) = (before.filter fun n => !n.isInList address)
      ∧ (after.filter fun n => n.isInList address).Perm (elements.map Node.canonical) := by
  obtain ⟨before, hbefore⟩ := exists_mapM_eq_ok fun q hq =>
    hplain.exists_node .all (Store.mem_childRows.mp hq).1
  obtain ⟨after, hafter⟩ := exists_mapM_eq_ok fun q hq => h.exists_node hs hs' hplain hq
  exact ⟨before, after, hbefore, hafter, h.nodes_beside hs hs' hbefore hafter,
    h.nodes_perm hs' hafter⟩

/-! ## The row that the list hangs under -/

/-- The row that the list hangs under reads as before but for the list. -/
theorem node_parent (h : ListReplaced owner parent address elements s s') (hs : s.Sound)
    (hs' : s'.Sound) (hplain : s.Plain) {r : Row} (hr : r ∈ s.rows) (howner : r.owner = owner)
    (hparent : parent = some r.id) {former : Node} (hformer : s.node .all r = .ok former) :
    s'.node .all r
      = .ok (former.withList address (elements.map Node.canonical)) := by
  have hr' := h.outside r hr (outsideList_parent hs hparent)
  obtain ⟨before, after, hbefore, hafter, hothers, helements⟩ := h.nodes hs hs' hplain
  rw [hparent, childRows_eq hs hr howner] at hbefore
  rw [hparent, childRows_eq hs' hr' howner] at hafter
  rw [node_all, childNodes_all hs.ordered, hbefore] at hformer
  rw [node_all, childNodes_all hs'.ordered, hafter]
  obtain ⟨leaves, hleaves, rfl⟩ := assemble_eq_ok_iff.mp hformer
  refine assemble_eq_ok_iff.mpr ⟨leaves, hleaves, ?_⟩
  exact (Node.withList_of_perm r.path leaves
    (map_path_of_mapM_node hbefore ▸ nodup_map_path_childrenIn hs hr)
    (map_path_of_mapM_node hafter ▸ nodup_map_path_childrenIn hs' hr') hothers helements).symm

/-! ## Lookups of that row -/

/-- Rows of the list are not found at the path of the row, nor is what is below
them. -/
theorem not_liesAt_of_listRows {s : Store} (hs : s.Sound) {r t q : Row} (hr : r ∈ s.rows)
    (hparent : parent = some r.id) (ht : t ∈ s.listRows owner parent address)
    (hbelow : AtOrBelow s.rows t q) : liesAt r.path q.path = false := by
  obtain ⟨htrow, -, htparent, -⟩ := Store.mem_listRows.mp ht
  have hrt : AtOrBelow s.rows r t := (AtOrBelow.self hr).step htrow (htparent.trans hparent)
  refine not_liesAt_of_below hs (hrt.trans hbelow) ?_
  rintro rfl
  exact hbelow.not_parent hs.ordered (htparent.trans hparent)

/-- The same rows are found at the path of the row. -/
theorem rowsAt_parent (h : ListReplaced owner parent address elements s s') (hs : s.Sound)
    (hs' : s'.Sound) {r : Row} (hr : r ∈ s.rows) (hparent : parent = some r.id) :
    s'.rowsAt owner r.path = s.rowsAt owner r.path := by
  have hr' := h.outside r hr (outsideList_parent hs hparent)
  refine eq_of_ids (hs'.ids.filter _) (hs.ids.filter _) fun q => ?_
  simp only [Store.rowsAt, List.mem_filter, Bool.and_eq_true, decide_eq_true_eq]
  constructor
  · rintro ⟨hq, howner, hfound⟩
    rcases h.inside q hq with hold | ⟨t', ht', hbelow⟩
    · exact ⟨hold, howner, hfound⟩
    · rw [not_liesAt_of_listRows hs' hr' hparent ht' hbelow] at hfound
      cases hfound
  · rintro ⟨hq, howner, hfound⟩
    refine ⟨h.outside q hq fun t ht hbelow => ?_, howner, hfound⟩
    rw [not_liesAt_of_listRows hs hr hparent ht hbelow] at hfound
    cases hfound

/-- Rows found beside the row read as before. -/
theorem node_beside (h : ListReplaced owner parent address elements s s') (hs : s.Sound)
    (hs' : s'.Sound) {r q : Row} (hr : r ∈ s.rows) (hparent : parent = some r.id)
    (hq : q ∈ s.rowsAt owner r.path) (hne : q ≠ r) (fetch : Fetch) :
    s'.node fetch q = s.node fetch q := by
  obtain ⟨hq, hfound⟩ := List.mem_filter.mp hq
  rw [Bool.and_eq_true, decide_eq_true_eq] at hfound
  refine h.node_apart hs hs' hq (fun t ht hbelow => ?_) (fun x hx hx' hbelow => ?_) fetch
  · have hnot := not_liesAt_of_listRows hs hr hparent ht hbelow
    cases hnot.symm.trans hfound.2
  · obtain rfl := hs.eq_of_id hr hx (Option.some.inj (hparent.symm.trans hx'))
    exact not_below_of_liesAt hs hfound.2 hne hbelow

end

end ListReplaced

/-! ## Replacements -/

/-- Whatever operations have been run, as long as stored leaves are scalars and
lists of scalars: a replacement of a list by elements without doubles that
succeeds leaves in the list exactly the rows of the elements, which are the rows
they were where the list had their paths, and touches nothing else.  The node
that the list hangs under reads as before but for the list, or if it is a list
of roots, so do the roots of the owner.  The same replacement has nothing left
to do. -/
theorem replaceList_replaces {history : List Operation} {access : Access} {owner : Owner}
    {parent address : String} {elements : List Node} {s' : Store} {summary : Summary}
    (hplain : (Store.empty.after history).Plain) (hexact : ∀ n ∈ elements, n.Exact)
    (hlist : ∀ n ∈ elements, listAddress n.path = .ok address)
    (hok : (Store.empty.after history).write access owner (.replaceList parent elements)
      = (s', .ok summary)) :
    let s := Store.empty.after history
    let new := elements.map Node.canonical
    (∃ id path, s.parentNamed owner parent = .ok (id, path)
      ∧ ListReplaced owner.id id address elements s s')
    ∧ (isRoot parent = false → ∃ r front former back, s.rowNamed owner parent = .ok r
        ∧ s.get owner parent .all = .ok (front ++ former :: back) ∧ s.node .all r = .ok former
        ∧ s'.get owner parent .all = .ok (front ++ former.withList address new :: back))
    ∧ (isRoot parent = true → ∃ before after, s.getMany owner [parent] .all = .ok before
        ∧ s'.getMany owner [parent] .all = .ok after
        ∧ (after.filter fun n => !n.isInList address)
          = (before.filter fun n => !n.isInList address)
        ∧ (after.filter fun n => n.isInList address).Perm new)
    ∧ s'.write access owner (.replaceList parent elements) = (s', .ok {}) := by
  intro s new
  have hs : s.Sound := sound_after history
  obtain ⟨hs', ⟨id, path, hparent, hreplaced⟩, hagain⟩ := listReplaced_of_write hs hexact hlist hok
  refine ⟨⟨id, path, hparent, hreplaced⟩, fun hroot => ?_, fun hroot => ?_, hagain⟩
  · rw [Store.parentNamed, if_neg (by rw [hroot]; decide)] at hparent
    obtain ⟨r, hr, heq⟩ := map_eq_ok_iff.mp hparent
    cases heq
    obtain ⟨hrow, howner, -⟩ := rowNamed_eq_ok hr
    obtain ⟨front, former, back, hget, hformer, hlater⟩ := get_beside hs hplain hr
      (hreplaced.rowsAt_parent hs hs' hrow rfl)
      fun q hq hne => hreplaced.node_beside hs hs' hrow rfl hq hne .all
    exact ⟨r, front, former, back, hr, hget, hformer,
      hlater _ (hreplaced.node_parent hs hs' hplain hrow howner rfl hformer)⟩
  · rw [Store.parentNamed, if_pos hroot] at hparent
    cases hparent
    obtain ⟨before, after, hbefore, hafter, hcontent⟩ := hreplaced.nodes hs hs' hplain
    refine ⟨before, after, ?_, ?_, hcontent⟩
    · rw [Store.getMany, Store.nodes, rowsAtAny_of_isRoot hroot, hbefore]
    · rw [Store.getMany, Store.nodes, rowsAtAny_of_isRoot hroot, hafter]

/-- A list below a node, of which one element is kept under another spelling of
its path beside a list with a longer name, and a list of roots. -/
theorem replaceList_replaces_of_similar_names :
    let owner : Owner := ⟨1, 1, "d", "o"⟩
    let request := Operation.request .readWrite
    let inner : Node := .leafless "/a/b[@k='1']/c"
    let tree : Node := .mk "/a" [] [("/a/b[@k='1']", .mk "/a/b[@k='1']" [] [(inner.path, inner)]),
      ("/a/b[@k='2']", .leafless "/a/b[@k='2']"), ("/a/bc[@k='1']", .leafless "/a/bc[@k='1']")]
    let history := [request (.createDataspace "d"), request (.createOwner ⟨1, "d"⟩ "o"),
      request (.write owner (.store [tree, .leafless "/l[@k=1]", .leafless "/l[@k=2]"]))]
    let s := Store.empty.after history
    let elements : List Node :=
      [.leafless "/a/b[@k='3']", .mk "/a/b[ @k = \"1\" ]" [("x", .bool true)] []]
    let roots : List Node := [.leafless "/l[@k=2]", .leafless "/l[@k=3]"]
    let s₁ := (s.write .readWrite owner (.replaceList "/a" elements)).1
    let s₂ := (s.write .readWrite owner (.replaceList "/" roots)).1
    s.Plain
      ∧ s.rows.map (fun r => (r.id, r.path)) = [(1, "/a"), (2, "/a/b[@k='1']"),
        (3, "/a/b[@k='1']/c"), (4, "/a/b[@k='2']"), (5, "/a/bc[@k='1']"), (6, "/l[@k=1]"),
        (7, "/l[@k=2]")]
      ∧ s₁.rows.map (fun r => (r.id, r.path)) = [(1, "/a"), (2, "/a/b[@k='1']"),
        (5, "/a/bc[@k='1']"), (6, "/l[@k=1]"), (7, "/l[@k=2]"), (8, "/a/b[@k='3']")]
      ∧ (∃ front former back, s.get owner "/a" .all = .ok (front ++ former :: back)
        ∧ s₁.get owner "/a" .all = .ok
          (front ++ former.withList "/a/b" (elements.map Node.canonical) :: back))
      ∧ s₁.write .readWrite owner (.replaceList "/a" elements) = (s₁, .ok {})
      ∧ (∃ before after, s.getMany owner ["/"] .all = .ok before
        ∧ s₂.getMany owner ["/"] .all = .ok after
        ∧ (after.filter fun n => n.isInList "/l").Perm (roots.map Node.canonical)) := by
  intro owner request inner tree history s elements roots s₁ s₂
  obtain ⟨hplain, hreplaced, hreplacedRoots, hrows, hrows₁⟩ :
      s.Plain
        ∧ (s.write .readWrite owner (.replaceList "/a" elements)).2
          = .ok { updated := 1, inserted := 1, deleted := 2 }
        ∧ (s.write .readWrite owner (.replaceList "/" roots)).2
          = .ok { inserted := 1, deleted := 1 }
        ∧ (Store.empty.after history).rows.map (fun r => (r.id, r.path))
          = [(1, "/a"), (2, "/a/b[@k='1']"), (3, "/a/b[@k='1']/c"), (4, "/a/b[@k='2']"),
            (5, "/a/bc[@k='1']"), (6, "/l[@k=1]"), (7, "/l[@k=2]")]
        ∧ (s.write .readWrite owner (.replaceList "/a" elements)).1.rows.map
          (fun r => (r.id, r.path)) = [(1, "/a"), (2, "/a/b[@k='1']"), (5, "/a/bc[@k='1']"),
            (6, "/l[@k=1]"), (7, "/l[@k=2]"), (8, "/a/b[@k='3']")] := by
    decide +kernel
  -- as a rewrite, which spares running the replacement again to see that the two agree
  have hs₁ : s₁ = (s.write .readWrite owner (.replaceList "/a" elements)).1 := rfl
  rw [← hs₁] at hrows₁
  have hlist : ∀ n ∈ elements, (listAddress n.path).toOption = some "/a/b" := by decide +kernel
  have hrootList : ∀ n ∈ roots, (listAddress n.path).toOption = some "/l" := by decide +kernel
  have hexact : ∀ n ∈ elements, n.Exact := by
    simp [elements, Node.leafless, Node.Exact, Node.AllExact, Leaves.Exact, Json.Exact,
      Json.MembersExact, Keyed.Sorted]
  have hrootsExact : ∀ n ∈ roots, n.Exact := by
    simp [roots, Node.leafless, Node.Exact, Node.AllExact, Leaves.Exact, Json.Exact,
      Json.MembersExact, Keyed.Sorted]
  obtain ⟨-, hbelow, -, hagain⟩ := replaceList_replaces hplain hexact
    (fun n hn => toOption_eq_some_iff.mp (hlist n hn)) (Prod.snd_eq_iff.mp hreplaced)
  obtain ⟨-, -, hroots, -⟩ := replaceList_replaces hplain hrootsExact
    (fun n hn => toOption_eq_some_iff.mp (hrootList n hn)) (Prod.snd_eq_iff.mp hreplacedRoots)
  obtain ⟨r, front, former, back, -, hget, -, hafter⟩ := hbelow rfl
  obtain ⟨before, after, hbefore, hlater, -, hperm⟩ := hroots rfl
  exact ⟨hplain, hrows, hrows₁, ⟨front, former, back, hget, hafter⟩, hagain, before, after,
    hbefore, hlater, hperm⟩

end DataTree
