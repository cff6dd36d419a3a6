import DataTree.Proofs.Path.Lists
import DataTree.Proofs.Store.Addresses
import DataTree.Proofs.Store.Refusal

/-!
# What passes for an element of a list

A replacement of a list reads its first element, and of the others only how
their canonical paths start.  So it refuses what does not go into the list,
wherever it stands among the elements, but takes whatever does, also what goes
further than its elements: nodes below an element, elements of a list in an
element, and paths with functions or with an axis.

## Main definitions

* `Node.InOneList` — nodes that all go into the list that the first one is an
  element of.

## Main results

* `inOneList_of_plan`, `plan_replaceList_of_inOneList` — a replacement asks
  its elements for this, and for nothing more.
* `replaceList_of_strays` — which replacements are refused for their elements,
  and which nodes are let through.
-/

namespace DataTree

open DataTree.Path

/-- Whether the first of several nodes is an element of a list and all that
they name go into that list. -/
def Node.InOneList (elements : List Node) : Prop :=
  ∃ first rest q, elements = first :: rest ∧ Query.parse first.path = .ok q
    ∧ q.namesListElement = true
    ∧ ∀ n ∈ Node.listed elements, ∃ p, Query.parse n.path = .ok p ∧ p.GoesInto q

theorem listAddress_eq_ok_iff {path address : String} :
    listAddress path = .ok address ↔ ∃ q, Query.parse path = .ok q
      ∧ q.namesListElement = true ∧ q.address = address := by
  rw [listAddress, bind_eq_ok_iff]
  apply exists_congr
  intro q
  rw [mapError_eq_ok_iff]
  apply and_congr_right
  intro _
  by_cases hlist : q.namesListElement = true
  · rw [if_pos hlist]
    show Except.ok q.address = Except.ok address ↔ _
    simp [hlist]
  · rw [if_neg hlist]
    simp [hlist]

example : (listAddress "/a/l[ @k = \"1\" ]").toOption = some "/a/l" := by decide +kernel

/-! ## What a plan asks for -/

section

variable {s : Store} {owner : Owner} {parent : String} {elements : List Node}

/-- The path of a node that was drafted, read and printed. -/
theorem exists_query_of_drafted {n : Node} {d : Draft} (h : n.Drafted d) (hsound : d.Sound) :
    ∃ p, Query.parse n.path = .ok p ∧ p.normalized = d.path :=
  parse_of_normalize (Draft.path_of_ofNode h.2) hsound.isRoot_path

/-- Drafts start like the elements of a list exactly if their nodes go into
it. -/
theorem startsWith_drafts_iff {ns : List Node} {ds : List Draft}
    (h : List.Forall₂ Node.Drafted ns ds) (hsound : ∀ d ∈ ds, d.Sound) {path : String} {q : Query}
    (hq : Query.parse path = .ok q) (hlist : q.namesListElement = true) :
    (∀ d ∈ ds, d.path.startsWith (q.address ++ "[") = true)
      ↔ ∀ n ∈ ns, ∃ p, Query.parse n.path = .ok p ∧ p.GoesInto q := by
  constructor
  · intro hstarts n hn
    obtain ⟨d, hd, hdrafted⟩ := exists_drafted h hn
    obtain ⟨p, hp, hpath⟩ := exists_query_of_drafted hdrafted (hsound d hd)
    have hstart := hstarts d hd
    rw [← hpath] at hstart
    exact ⟨p, hp, (startsWith_lead_iff hp hq hlist).mp hstart⟩
  · intro hgo d hd
    obtain ⟨n, hn, hdrafted⟩ := exists_listed h hd
    obtain ⟨p, hp, hpath⟩ := exists_query_of_drafted hdrafted (hsound d hd)
    obtain ⟨p', hp', hinto⟩ := hgo n hn
    obtain rfl := Except.ok.inj (hp.symm.trans hp')
    rw [← hpath]
    exact (startsWith_lead_iff hp hq hlist).mpr hinto

theorem sound_of_listDrafts {path : String} {ds : List Draft}
    (hds : draftsUnder path elements = .ok ds) : ∀ d ∈ ds, d.Sound :=
  fun d hd => (draftsUnder_eq_ok hds d hd).1

/-- A replacement is planned only for nodes that go into one list. -/
theorem inOneList_of_plan {change : Change}
    (h : Write.plan s owner (.replaceList parent elements) = .ok change) :
    Node.InOneList elements := by
  cases elements with
  | nil => cases h
  | cons first rest =>
      obtain ⟨id, path, ds, address, es, -, hds, haddress, hstarts, -, -⟩ :=
        planReplaceList_cons_eq_ok_iff.mp h
      obtain ⟨q, hq, hlist, rfl⟩ := listAddress_eq_ok_iff.mp haddress
      have hinto := (startsWith_drafts_iff (forall₂_of_draftsUnder hds)
        (sound_of_listDrafts hds) hq hlist).mp hstarts
      exact ⟨first, rest, q, rfl, hq, hlist, hinto⟩

/-- Nodes that go into one list and can be drafted under a parent that is there
are refused for nothing but leaves that were stored unreadable. -/
theorem plan_replaceList_of_inOneList (h : Node.InOneList elements) {id : Option Nat}
    {path : String} {ds : List Draft} (hparent : s.parentNamed owner parent = .ok (id, path))
    (hds : draftsUnder path elements = .ok ds) :
    FailsWith (· = .unreadableLeaves) (Write.plan s owner (.replaceList parent elements)) := by
  obtain ⟨first, rest, q, rfl, hq, hlist, hinto⟩ := h
  have hstarts := (startsWith_drafts_iff (forall₂_of_draftsUnder hds) (sound_of_listDrafts hds)
    hq hlist).mpr hinto
  have haddress := listAddress_eq_ok_iff.mpr ⟨q, hq, hlist, rfl⟩
  have hnone : (ds.find? fun d => !d.path.startsWith (q.address ++ "[")) = none := by
    simpa using hstarts
  show FailsWith _ (planReplaceList s owner parent (first :: rest))
  rw [planReplaceList]
  refine .bind_of_eq hparent (.bind_of_eq hds (.bind_of_eq haddress ?_))
  simp only [hnone]
  exact .bind (failsWith_reconcileChildren _ _ _ _) fun es => .ok _

/-- A replacement that is not planned leaves the store as it is. -/
theorem write_of_strays (h : ¬Node.InOneList elements) (access : Access) :
    ∃ e, s.write access owner (.replaceList parent elements) = (s, .error e) := by
  cases hplan : Write.plan s owner (.replaceList parent elements) with
  | error e => exact ⟨e, by rw [Store.write, hplan]⟩
  | ok change => exact absurd (inOneList_of_plan hplan) h

/-- What is planned is refused late if at all. -/
theorem write_of_failsWith {w : Write} {P : StoreError → Prop} {access : Access} {e : StoreError}
    (h : FailsWith P (w.plan s owner)) (herror : (s.write access owner w).2 = .error e) :
    e.comesLate = true ∨ P e := by
  rw [Store.write] at herror
  split at herror
  · rename_i e' hplan
    cases herror
    exact .inr (h e hplan)
  · split at herror
    · cases herror
      exact .inl rfl
    · exact .inl (comesLate_of_commit herror)

/-- The elements of a list among the paths that go into it. -/
theorem listAddress_eq_iff {element path : String} {q : Query} (hq : Query.parse element = .ok q)
    (hlist : q.namesListElement = true) : listAddress path = .ok q.address ↔
      ∃ p, Query.parse path = .ok p ∧ p.GoesInto q ∧ p.namesListElement = true
        ∧ p.parents.length = q.parents.length := by
  rw [listAddress_eq_ok_iff]
  apply exists_congr
  intro p
  apply and_congr_right
  intro hp
  constructor
  · rintro ⟨helement, haddress⟩
    obtain ⟨hinto, hlength⟩ := (address_eq_iff hp hq hlist helement).mp haddress
    exact ⟨hinto, helement, hlength⟩
  · rintro ⟨hinto, helement, hlength⟩
    exact ⟨helement, (address_eq_iff hp hq hlist helement).mpr ⟨hinto, hlength⟩⟩

end

/-- Whatever operations have been run, a replacement of a list is refused and
leaves the store as it is if a node that it is given, at any position and with
root markers expanded, does not go into the list of the first one.  If all do
and can be drafted under a parent that is there, it is refused for no other
reason than leaves that were stored unreadable, or late.  Of what goes into a
list, its elements are the elements of lists with as many steps: so nodes
below an element, elements of lists in it, and paths with a function or an
axis are let through. -/
theorem replaceList_of_strays (history : List Operation) (access : Access) (owner : Owner)
    (parent : String) (elements : List Node) :
    let s := Store.empty.after history
    let w := Write.replaceList parent elements
    (¬Node.InOneList elements → ∃ e, s.write access owner w = (s, .error e))
      ∧ (Node.InOneList elements → ∀ id path ds, s.parentNamed owner parent = .ok (id, path) →
        draftsUnder path elements = .ok ds → ∀ e, (s.write access owner w).2 = .error e →
          e.comesLate = true ∨ e = .unreadableLeaves)
      ∧ ∀ element path q, Query.parse element = .ok q → q.namesListElement = true →
        (listAddress path = .ok q.address ↔ ∃ p, Query.parse path = .ok p ∧ p.GoesInto q
          ∧ p.namesListElement = true ∧ p.parents.length = q.parents.length) := by
  intro s w
  refine ⟨fun hstray => write_of_strays hstray access, fun hinto id path ds hparent hds e => ?_,
    fun element path q hq hlist => listAddress_eq_iff hq hlist⟩
  exact write_of_failsWith (plan_replaceList_of_inOneList hinto hparent hds)

/-- A node of another list inside a root marker; then what goes into a list
without being an element of it: a node below an element, an element of a list
in one, and paths with a function or an axis.  Such a node is refused only
where its path is taken. -/
theorem replaceList_of_strays_in_one_list :
    let owner : Owner := ⟨1, 1, "d", "o"⟩
    let request := Operation.request .readWrite
    let history := [request (.createDataspace "d"), request (.createOwner ⟨1, "d"⟩ "o"),
      request (.write owner (.store (["/a", "/a/l[@k='9']/c"].map Node.leafless)))]
    let s := Store.empty.after history
    let other : Node := .leafless "/a/m[@k='1']"
    let mixed : List Node := [.leafless "/a/l[@k='1']", .mk "/" [] [(other.path, other)]]
    let strays := ["/a/l[@k='1']", "/a/l[@k='2']/c", "/a/l[@k='3']/l[@k='1']",
      "/a/l[contains(@k,'4')]", "/a/l[text()='5']", "/a/l[@k='6']/ancestor::a"].map Node.leafless
    let taken := ["/a/l[@k='1']", "/a/l[@k='9']/c"].map Node.leafless
    let replaced := s.write .readWrite owner (.replaceList "/a" strays)
    (∃ e, s.write .readWrite owner (.replaceList "/a" mixed) = (s, .error e))
      ∧ replaced.2 = .ok { inserted := 6 }
      ∧ strays.map (fun n => (listAddress n.path).toOption)
        = [some "/a/l", none, some "/a/l[@k='3']/l", none, none, none]
      ∧ (∃ e, (s.write .readWrite owner (.replaceList "/a" taken)).2 = .error e
        ∧ (e.comesLate = true ∨ e = .unreadableLeaves))
      ∧ ∃ p q, Query.parse "/a/l[@k='2']" = .ok p ∧ Query.parse "/a/l[@k='1']" = .ok q
        ∧ p.GoesInto q := by
  intro owner request history s other mixed strays taken replaced
  let element (name key : String) : Query := ⟨.absolute, [⟨"a", []⟩], name,
    .filtered (some ⟨⟨"k", .equal, .text key⟩, []⟩) none, none⟩
  have hfirst : Query.parse "/a/l[@k='1']" = .ok (element "l" "1") :=
    toOption_eq_some_iff.mp (by decide +kernel)
  have hother : Query.parse "/a/m[@k='1']" = .ok (element "m" "1") :=
    toOption_eq_some_iff.mp (by decide +kernel)
  have hmixed : ¬Node.InOneList mixed := by
    rintro ⟨first, rest, q, heq, hq, -, hinto⟩
    obtain ⟨rfl, -⟩ := List.cons.inj heq
    obtain rfl := Except.ok.inj (hfirst.symm.trans hq)
    have hlisted : other ∈ Node.listed mixed := List.mem_cons_of_mem _ List.mem_cons_self
    obtain ⟨p, hp, -, predicate, more, behind, hsteps⟩ := hinto other hlisted
    obtain rfl := Except.ok.inj (hother.symm.trans hp)
    have hnames : ["a", "m"] = "a" :: "l" :: behind.map WrittenStep.name :=
      congrArg (List.map WrittenStep.name) hsteps
    have hname : "m" = "l" := (List.cons.inj (List.cons.inj hnames).2).1
    revert hname
    decide
  obtain ⟨hplanned, hparent, hrefused, hreplaced⟩ :
      (Write.plan s owner (.replaceList "/a" taken)).toOption.isSome = true
        ∧ (s.parentNamed owner "/a").toOption = some (some 1, "/a")
        ∧ Outcome.refusal? (s.write .readWrite owner (.replaceList "/a" taken)).2
          = some (.alreadyStored "o" ["/a/l[@k='9']/c"])
        ∧ (s.write .readWrite owner (.replaceList "/a" strays)).2.toOption
          = some { inserted := 6 } := by
    decide +kernel
  -- as a rewrite, which spares running the replacement again to see that the two agree
  have hwrite : replaced = s.write .readWrite owner (.replaceList "/a" strays) := rfl
  rw [← hwrite] at hreplaced
  obtain ⟨change, hplan⟩ := Option.isSome_iff_exists.mp hplanned
  have hdrafted : (draftsUnder "/a" taken).toOption.isSome = true := by decide +kernel
  obtain ⟨ds, hds⟩ := Option.isSome_iff_exists.mp hdrafted
  replace hrefused := refusal?_eq_some_iff.mp hrefused
  obtain ⟨hstray, -, -⟩ := replaceList_of_strays history .readWrite owner "/a" mixed
  obtain ⟨-, hlate, helement⟩ := replaceList_of_strays history .readWrite owner "/a" taken
  have hlist : listAddress "/a/l[@k='2']" = .ok (element "l" "1").address :=
    toOption_eq_some_iff.mp (by decide +kernel)
  obtain ⟨p, hp, hinto, -⟩ :=
    (helement "/a/l[@k='1']" "/a/l[@k='2']" _ hfirst (by decide +kernel)).mp hlist
  have hlists : strays.map (fun n => (listAddress n.path).toOption)
      = [some "/a/l", none, some "/a/l[@k='3']/l", none, none, none] := by decide +kernel
  have hintoOne := inOneList_of_plan (toOption_eq_some_iff.mp hplan)
  exact ⟨hstray hmixed, toOption_eq_some_iff.mp hreplaced, hlists,
    ⟨_, hrefused, hlate hintoOne _ _ ds (toOption_eq_some_iff.mp hparent)
      (toOption_eq_some_iff.mp hds) _ hrefused⟩, p, _, hp, hfirst, hinto⟩

/-- A node below an element of a list is stored as if it were one. -/
theorem replaceList_unchecked :
    let owner : Owner := ⟨1, 1, "d", "o"⟩
    let request := Operation.request .readWrite
    let history := [request (.createDataspace "d"), request (.createOwner ⟨1, "d"⟩ "o"),
      request (.write owner (.store [.leafless "/a"]))]
    let s := Store.empty.after history
    let elements := ["/a/l[@k='1']", "/a/l[@k='2']/c"].map Node.leafless
    let replaced := s.write .readWrite owner (.replaceList "/a" elements)
    listAddress "/a/l[@k='1']" = .ok "/a/l" ∧ listAddress "/a/l[@k='2']/c" ≠ .ok "/a/l"
      ∧ replaced.2 = .ok { inserted := 2 }
      ∧ replaced.1.rows.map Row.path = ["/a", "/a/l[@k='1']", "/a/l[@k='2']/c"] := by
  intro owner request history s elements replaced
  obtain ⟨hlist, hstray, hreplaced, hrows⟩ :
      (listAddress "/a/l[@k='1']").toOption = some "/a/l"
        ∧ (listAddress "/a/l[@k='2']/c").toOption ≠ some "/a/l"
        ∧ (s.write .readWrite owner (.replaceList "/a" elements)).2.toOption
          = some { inserted := 2 }
        ∧ (s.write .readWrite owner (.replaceList "/a" elements)).1.rows.map Row.path
          = ["/a", "/a/l[@k='1']", "/a/l[@k='2']/c"] := by
    decide +kernel
  have hwrite : replaced = s.write .readWrite owner (.replaceList "/a" elements) := rfl
  rw [← hwrite] at hreplaced hrows
  exact ⟨toOption_eq_some_iff.mp hlist, fun h => hstray (toOption_eq_some_iff.mpr h),
    toOption_eq_some_iff.mp hreplaced, hrows⟩

end DataTree
