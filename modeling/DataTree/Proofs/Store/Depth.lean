import DataTree.Proofs.Store.Validity
import DataTree.Store.Prefetch

/-!
# Reads to a depth

A read to a depth gives what a read of everything gives, with each of its
trees cut off below that depth.  Trees are cut one by one: where one row that
is found lies below another, its node is given twice, once by itself and once
within the other, and each of the two is cut at its own depth.

The rows are gathered for all of these trees together, so a row may be
gathered on account of one tree and lie too deep in another.  What a tree is
read from are the rows in reach of its own root, all of which are gathered,
and the depth counts down from there, so nothing else gets in.

## Main definitions

* `Node.cut` — a tree down to a number of levels.

## Main results

* `node_cut` — a row read to a depth.
* `mem_reach_step` — what is within reach is closed under children.
* `materialize_eq` — nodes are the same read from the rows gathered.
* `read_cut` — reads to a depth cut off what a read of everything gives.
-/

namespace DataTree

/-! ## Cutting trees -/

namespace Node

mutual
/-- The tree down to a number of levels below its root, or all of it. -/
def cut : Option Nat → Node → Node
  | some 0, mk path leaves _ => mk path leaves []
  | some (count + 1), mk path leaves children => mk path leaves (cutAll (some count) children)
  | none, mk path leaves children => mk path leaves (cutAll none children)

def cutAll : Option Nat → List (String × Node) → List (String × Node)
  | _, [] => []
  | levels, (key, child) :: rest => (key, cut levels child) :: cutAll levels rest
end

theorem cutAll_eq (levels : Option Nat) (children : List (String × Node)) :
    cutAll levels children = children.map fun e => (e.1, e.2.cut levels) := by
  induction children with
  | nil => rw [cutAll, List.map_nil]
  | cons e rest ih => rw [cutAll, ih, List.map_cons]

theorem path_cut (levels : Option Nat) (n : Node) : (n.cut levels).path = n.path := by
  obtain ⟨path, leaves, children⟩ := n
  match levels with
  | some 0 | some (_ + 1) | none => rw [cut, Node.path, Node.path]

mutual
/-- All levels are the whole tree. -/
theorem cut_none : (n : Node) → n.cut none = n
  | mk path leaves children => by rw [cut, cutAll_none children]

theorem cutAll_none : (children : List (String × Node)) → cutAll none children = children
  | [] => by rw [cutAll]
  | (key, child) :: rest => by rw [cutAll, cut_none child, cutAll_none rest]
end

end Node

/-! ## Depths -/

namespace Fetch

theorem hasNext_iff {f : Fetch} : f.hasNext = true ↔ f.limit ≠ some 0 := by
  rw [hasNext, limit, decide_eq_true_iff]
  cases f.maxDepth with
  | none => simp
  | some count => simp [← UInt32.toNat_inj]

/-- The depth counts down. -/
theorem limit_next (f : Fetch) : f.next.limit = f.limit.map Nat.pred := by
  rw [limit, maxDepth_next, limit]
  cases f.maxDepth with
  | none => rfl
  | some count =>
      simp only [Option.map_some, Option.some.injEq]
      split
      · rename_i h
        rw [h]
        rfl
      · rename_i h
        have hpos : 1 ≤ count := by
          rw [← UInt32.toNat_inj] at h
          exact UInt32.le_iff_toNat_le.mpr (Nat.pos_of_ne_zero h)
        rw [UInt32.toNat_sub_of_le count 1 hpos]
        rfl

theorem cut_of_hasNext {f : Fetch} (h : f.hasNext = true) (path : String) (leaves : Leaves)
    (children : List (String × Node)) :
    (Node.mk path leaves children).cut f.limit
      = .mk path leaves (Node.cutAll f.next.limit children) := by
  have hlimit := hasNext_iff.mp h
  rw [limit_next]
  match hf : f.limit with
  | some 0 => exact absurd hf hlimit
  | some (count + 1) => rw [Node.cut]; rfl
  | none => rw [Node.cut]; rfl

theorem cut_of_not_hasNext {f : Fetch} (h : f.hasNext = false) (path : String) (leaves : Leaves)
    (children : List (String × Node)) :
    (Node.mk path leaves children).cut f.limit = .mk path leaves [] := by
  have hlimit : f.limit = some 0 := by
    by_contra hne
    rw [hasNext_iff.mpr hne] at h
    cases h
  rw [hlimit, Node.cut]

end Fetch

/-! ## Reads of rows -/

/-- A row is put together from cut children as the cut node. -/
theorem assemble_cut {r : Row} {children : List Node} {n : Node}
    (h : assemble r children = .ok n) (fetch : Fetch) :
    assemble r (if fetch.hasNext then children.map (Node.cut fetch.next.limit) else [])
      = .ok (n.cut fetch.limit) := by
  obtain ⟨leaves, hleaves, rfl⟩ := assemble_eq_ok_iff.mp h
  refine assemble_eq_ok_iff.mpr ⟨leaves, hleaves, ?_⟩
  cases hnext : fetch.hasNext with
  | false => exact Fetch.cut_of_not_hasNext hnext r.path leaves _
  | true =>
      have hkeyed : (children.map (Node.cut fetch.next.limit)).map (fun c => (c.path, c))
          = (children.map fun c => (c.path, c)).map fun e => (e.1, e.2.cut fetch.next.limit) := by
        simp only [List.map_map, Function.comp_def, Node.path_cut]
      have hmap := Keyed.insertAll_map (Node.cut fetch.next.limit) []
        (children.map fun c => (c.path, c))
      rw [Fetch.cut_of_hasNext hnext, Node.cutAll_eq, if_pos rfl, hkeyed]
      exact congrArg (Node.mk r.path leaves) hmap.symm

/-- So a row is read to a depth, if the rows below it are. -/
theorem nodesBelow_cut {fetch : Fetch} {r : Row} {rows : List Row} {n : Node}
    (h : nodesBelow .all r rows >>= assemble r = .ok n)
    (hbelow : ∀ children, childNodes .all r.id rows = .ok children →
      childNodes fetch.next r.id rows = .ok (children.map (Node.cut fetch.next.limit))) :
    nodesBelow fetch r rows >>= assemble r = .ok (n.cut fetch.limit) := by
  obtain ⟨children, hchildren, hassemble⟩ := bind_eq_ok_iff.mp h
  refine bind_eq_ok_iff.mpr ⟨_, ?_, assemble_cut hassemble fetch⟩
  rw [nodesBelow]
  split
  · exact hbelow children hchildren
  · rfl

theorem childNodes_cut {rows : List Row} {p : Nat} {children : List Node}
    (h : childNodes .all p rows = .ok children) (fetch : Fetch) :
    childNodes fetch p rows = .ok (children.map (Node.cut fetch.limit)) := by
  induction rows generalizing p children fetch with
  | nil =>
      cases h
      rfl
  | cons r rest ih =>
      by_cases hparent : r.parent = some p
      · rw [childNodes_cons hparent] at h ⊢
        obtain ⟨below, hbelow, h⟩ := bind_eq_ok_iff.mp h
        obtain ⟨n, hnode, h⟩ := bind_eq_ok_iff.mp h
        obtain ⟨more, hmore, h⟩ := bind_eq_ok_iff.mp h
        cases h
        have hcut := nodesBelow_cut (bind_eq_ok_iff.mpr ⟨below, hbelow, hnode⟩)
          fun children hchildren => ih hchildren fetch.next
        obtain ⟨cut, hread, hput⟩ := bind_eq_ok_iff.mp hcut
        rw [hread]
        show assemble r cut >>= _ = _
        rw [hput]
        show childNodes fetch p rest >>= _ = _
        rw [ih hmore fetch]
        rfl
      · rw [childNodes, if_neg hparent] at h ⊢
        exact ih h fetch

/-- A row read to a depth is the row read in full and cut. -/
theorem node_cut {s : Store} {r : Row} {n : Node} (h : s.node .all r = .ok n) (fetch : Fetch) :
    s.node fetch r = .ok (n.cut fetch.limit) := by
  rw [node_eq] at h ⊢
  exact nodesBelow_cut h fun children hchildren => childNodes_cut hchildren fetch.next

theorem nodes_cut {s : Store} {rows : List Row} {nodes : List Node}
    (h : s.nodes .all rows = .ok nodes) (fetch : Fetch) :
    s.nodes fetch rows = .ok (nodes.map (Node.cut fetch.limit)) :=
  mapM_eq_ok_map h fun _ _ _ hnode => node_cut hnode fetch

/-! ## Rows within reach -/

section Reach

variable {limit : Option Nat} {asked : List Nat}

theorem subset_reach (found : List (Nat × Nat)) (rows : List Row) :
    found ⊆ reach limit asked found rows := by
  induction rows generalizing found with
  | nil => exact List.Subset.refl _
  | cons r rest ih =>
      refine List.Subset.trans ?_ (ih _)
      rw [List.append_assoc]
      exact List.subset_append_left _ _

theorem reach_append (found : List (Nat × Nat)) (front back : List Row) :
    reach limit asked found (front ++ back)
      = reach limit asked (reach limit asked found front) back := by
  induction front generalizing found with
  | nil => rfl
  | cons r rest ih => exact ih _

/-- Only rows are reached. -/
theorem mem_reach {found : List (Nat × Nat)} {rows : List Row} {e : Nat × Nat}
    (h : e ∈ reach limit asked found rows) : e ∈ found ∨ ∃ r ∈ rows, r.id = e.1 := by
  induction rows generalizing found with
  | nil => exact .inl h
  | cons r rest ih =>
      rcases ih h with hfound | ⟨q, hq, hid⟩
      · rcases List.mem_append.mp hfound with hfound | hbelow
        · rcases List.mem_append.mp hfound with hfound | hstart
          · exact .inl hfound
          · split at hstart
            · exact .inr ⟨r, List.mem_cons_self,
                (Prod.mk.inj (List.mem_singleton.mp hstart)).1.symm⟩
            · cases hstart
        · obtain ⟨f, -, rfl⟩ := List.mem_map.mp hbelow
          exact .inr ⟨r, List.mem_cons_self, rfl⟩
      · exact .inr ⟨q, List.mem_cons_of_mem r hq, hid⟩

/-- The rows asked for are within reach. -/
theorem mem_reach_start {found : List (Nat × Nat)} {rows : List Row} {r : Row} (hr : r ∈ rows)
    (hasked : r.id ∈ asked) : (r.id, 0) ∈ reach limit asked found rows := by
  obtain ⟨front, back, rfl⟩ := List.append_of_mem hr
  rw [reach_append]
  refine subset_reach _ back ?_
  simp [hasked]

/-- So are the rows below those within reach, down to the limit. -/
theorem mem_reach_step {rows : List Row} (hordered : Ordered rows) {c : Row} (hc : c ∈ rows)
    {g d : Nat} (hparent : c.parent = some g) (hg : (g, d) ∈ reach limit asked [] rows)
    (hlimit : ∀ m, limit = some m → d < m) : (c.id, d + 1) ∈ reach limit asked [] rows := by
  obtain ⟨front, back, rfl⟩ := List.append_of_mem hc
  rw [reach_append] at hg ⊢
  -- the parent comes before its child, so it has been found by then
  have hbefore : (g, d) ∈ reach limit asked [] front := by
    rcases mem_reach hg with hfound | ⟨q, hq, hid⟩
    · exact hfound
    · exfalso
      have hlt := hordered.parents c hc g hparent
      have hpairs := (List.pairwise_append.mp hordered.ids).2.1
      rcases List.mem_cons.mp hq with rfl | hq
      · omega
      · have := (List.pairwise_cons.mp hpairs).1 q hq
        omega
  refine subset_reach _ back (List.mem_append_right _ (List.mem_map.mpr ⟨(g, d), ?_, rfl⟩))
  refine List.mem_filter.mpr ⟨hbefore, ?_⟩
  rw [hparent]
  cases limit with
  | none => simp
  | some m => simpa using hlimit m rfl

end Reach

/-! ## Reads of the rows gathered -/

/-- Whether the rows gathered have what is read under a row, each to depth
`fetch`: it is reached at a depth that leaves room for these and for what is
below them. -/
def Covered (limit : Option Nat) (found : List (Nat × Nat)) (fetch : Fetch) (id : Nat) : Prop :=
  ∃ d, (id, d) ∈ found ∧ ∀ m, limit = some m → ∃ k, fetch.limit = some k ∧ d + 1 + k ≤ m

theorem covered_step {limit : Option Nat} {asked : List Nat} {rows : List Row}
    (hordered : Ordered rows) {c : Row} (hc : c ∈ rows) {g : Nat} {fetch : Fetch}
    (hparent : c.parent = some g) (h : Covered limit (reach limit asked [] rows) fetch g) :
    (∃ d, (c.id, d) ∈ reach limit asked [] rows)
      ∧ (fetch.hasNext = true → Covered limit (reach limit asked [] rows) fetch.next c.id) := by
  obtain ⟨d, hg, hroom⟩ := h
  have hreached := mem_reach_step hordered hc hparent hg fun m hm => by
    obtain ⟨k, -, hk⟩ := hroom m hm
    omega
  refine ⟨⟨d + 1, hreached⟩, fun hnext => ⟨d + 1, hreached, fun m hm => ?_⟩⟩
  obtain ⟨k, hlimit, hk⟩ := hroom m hm
  have hpos : k ≠ 0 := by
    rintro rfl
    exact Fetch.hasNext_iff.mp hnext hlimit
  refine ⟨k - 1, by rw [Fetch.limit_next, hlimit]; rfl, ?_⟩
  omega

/-- A row asked for reads the same among the rows gathered. -/
theorem node_gathered {s : Store} (hordered : Ordered s.rows) {fetch : Fetch} {rows : List Row}
    {r : Row} (hr : r ∈ rows) (hstored : r ∈ s.rows) :
    ({ s with rows := s.gathered fetch rows } : Store).node fetch r = s.node fetch r := by
  rw [Store.node, Store.node]
  cases hnext : fetch.hasNext with
  | false => rfl
  | true =>
      have hne : rows.isEmpty = false := by
        cases rows with
        | nil => cases hr
        | cons => rfl
      have hcovered : Covered fetch.limit (reach fetch.limit (rows.map Row.id) [] s.rows)
          fetch.next r.id := by
        refine ⟨0, mem_reach_start hstored (List.mem_map_of_mem hr), fun m hm => ?_⟩
        have hpos : m ≠ 0 := by
          rintro rfl
          exact Fetch.hasNext_iff.mp hnext hm
        refine ⟨m - 1, by rw [Fetch.limit_next, hm]; rfl, ?_⟩
        omega
      have hchildren : childNodes fetch.next r.id (s.gathered fetch rows)
          = childNodes fetch.next r.id s.rows := by
        rw [Store.gathered, hnext, hne]
        refine childNodes_filter_of_depth (fun c hc g depth hparent hg => ?_) hcovered
        obtain ⟨⟨d, hreached⟩, hbelow⟩ := covered_step hordered hc hparent hg
        exact ⟨List.contains_iff_mem.mpr (List.mem_map.mpr ⟨_, hreached, rfl⟩), hbelow⟩
      simp only [if_true]
      rw [hchildren]

/-- Nodes are the same read from the rows gathered. -/
theorem materialize_eq {s : Store} (hs : s.Sound) (fetch : Fetch) {rows : List Row}
    (hrows : ∀ r ∈ rows, r ∈ s.rows) : s.materialize fetch rows = s.nodes fetch rows :=
  mapM_congr fun r hr => node_gathered hs.ordered hr (hrows r hr)

/-! ## Reads to a depth -/

/-- Whatever operations have been run, every read to a depth gives what the
read of everything gives, if that succeeds, with each of its trees cut off
below the depth; the trees of a query across owners keep the names of these.
The read of everything cuts off nothing.  And every read gives what it gives
when the rows below all rows that it finds are gathered together first. -/
theorem read_cut (history : List Operation) (fetch : Fetch) :
    let s := Store.empty.after history
    (∀ asked nodes, s.read .all asked = .ok nodes →
        s.read fetch asked = .ok (nodes.map (Node.cut fetch.limit)))
      ∧ (∀ dataspace path paging found, s.queryAcross dataspace path .all paging = .ok found →
          s.queryAcross dataspace path fetch paging
            = .ok (found.map fun e => (e.1, e.2.cut fetch.limit)))
      ∧ (∀ n : Node, n.cut Fetch.all.limit = n)
      ∧ ∀ asked, s.read fetch asked = s.found asked >>= s.materialize fetch := by
  intro s
  refine ⟨fun asked nodes hread => ?_, fun dataspace path paging found hread => ?_,
    Node.cut_none, fun asked => ?_⟩
  · rw [read_eq] at hread ⊢
    obtain ⟨rows, hrows, hnodes⟩ := bind_eq_ok_iff.mp hread
    rw [hrows]
    exact nodes_cut hnodes fetch
  · rw [queryAcross_eq_found] at hread ⊢
    obtain ⟨rows, hrows, hnodes⟩ := bind_eq_ok_iff.mp hread
    rw [hrows]
    refine mapM_eq_ok_map hnodes fun r _ e he => ?_
    obtain ⟨n, hnode, rfl⟩ := map_eq_ok_iff.mp he
    rw [node_cut hnode fetch]
    rfl
  · rw [read_eq]
    cases hfound : s.found asked with
    | error e => rfl
    | ok rows => exact (materialize_eq (sound_after history) fetch (mem_of_found hfound)).symm

/-- A query that finds a row and another two levels below it. -/
theorem read_cut_of_nested_matches :
    let lower : Node := .mk "/a/b/a" [] [("/a/b/a/c", .leafless "/a/b/a/c")]
    let middle : Node := .mk "/a/b" [] [(lower.path, lower)]
    let tree : Node := .mk "/a" [("x", .bool true)] [(middle.path, middle)]
    let owner : Owner := ⟨1, 1, "d", "o"⟩
    let history : List Operation := [.request .readWrite (.createDataspace "d"),
      .request .readWrite (.createOwner ⟨1, "d"⟩ "o"),
      .request .readWrite (.write owner (.store [tree]))]
    let s := Store.empty.after history
    ∃ nodes, s.read .all (.query owner "//a") = .ok nodes
      ∧ nodes.map (fun n => (n.path, n.size)) = [("/a", 4), ("/a/b/a", 2)]
      ∧ s.read .children (.query owner "//a") = .ok (nodes.map (Node.cut (some 1)))
      ∧ (nodes.map (Node.cut (some 1))).map Node.size = [2, 2]
      ∧ s.read .nodeOnly (.query owner "//a") = .ok (nodes.map (Node.cut (some 0)))
      ∧ (nodes.map (Node.cut (some 0))).map Node.size = [1, 1] := by
  intro lower middle tree owner history s
  have hfull : (s.read .all (.query owner "//a")).toOption.map
      (List.map fun n => (n.path, n.size)) = some [("/a", 4), ("/a/b/a", 2)] := by decide +kernel
  obtain ⟨nodes, hnodes, hsizes⟩ := Option.map_eq_some_iff.mp hfull
  have hnodes := toOption_eq_some_iff.mp hnodes
  have hchildren := (read_cut history .children).1 _ nodes hnodes
  have honly := (read_cut history .nodeOnly).1 _ nodes hnodes
  exact ⟨nodes, hnodes, hsizes, hchildren, eq_of_toOption_map hchildren (by decide +kernel), honly,
    eq_of_toOption_map honly (by decide +kernel)⟩

end DataTree
