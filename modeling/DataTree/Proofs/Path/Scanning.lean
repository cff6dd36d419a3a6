import DataTree.Path.Match

/-!
# Scanning for a word

A scan from the left finds an occurrence of a word, goes on behind it, and so
finds occurrences that do not overlap.  The text it has read when it finds one
falls into pieces, each of which ends with the word and does so nowhere before.
An occurrence that starts inside of one found before is passed over, so what is
found depends on the whole text in front; a word that does not overlap itself is
found wherever it stands.

## Main definitions

* `EndsFirst` — a text ends with a word for the first time.
* `ScansTo` — the texts behind which a scan finds a word.
* `Unbordered` — a word does not overlap itself.

## Main results

* `mem_afterOccurrences_iff` — what a scan leaves behind each occurrence.
* `scansTo_append` — a word that does not overlap itself is never passed over.
-/

namespace DataTree.Path

open DataTree.Text

/-- Whether a text ends with `word`, and no text shorter than it that it starts
with does. -/
def EndsFirst (word piece : List Char) : Prop :=
  word <:+ piece ∧ ∀ front, front <+: piece → word <:+ front → front = piece

/-- Texts in pieces that end with `word` for the first time. -/
inductive ScansTo (word : List Char) : List Char → Prop where
  | last {piece : List Char} : EndsFirst word piece → ScansTo word piece
  | cons {piece rest : List Char} : EndsFirst word piece → ScansTo word rest →
      ScansTo word (piece ++ rest)

/-- Whether no part of `word` but the whole is both its start and its end. -/
def Unbordered (word : List Char) : Prop :=
  ∀ part, part ≠ [] → part <+: word → part <:+ word → part = word

variable {word : List Char}

theorem ScansTo.isSuffix {scanned : List Char} (h : ScansTo word scanned) : word <:+ scanned := by
  induction h with
  | last hpiece => exact hpiece.1
  | cons _ _ ih => exact ih.trans (List.suffix_append _ _)

theorem endsFirst_self : EndsFirst word word := by
  refine ⟨List.suffix_refl word, fun front hfront hsuffix => ?_⟩
  exact hfront.eq_of_length_le hsuffix.length_le

/-- A text where the word does not stand at the front ends with it for the first
time if it does so without its first character. -/
theorem endsFirst_cons_iff {c : Char} {piece rest : List Char}
    (hfront : ¬ word <+: c :: (piece ++ rest)) (hword : word ≠ []) :
    EndsFirst word (c :: piece) ↔ EndsFirst word piece := by
  have hcut : ∀ front, front <+: piece → (word <:+ c :: front ↔ word <:+ front) := by
    intro front hpiece
    rw [List.suffix_cons_iff]
    constructor
    · rintro (hall | hsuffix)
      · refine absurd ?_ hfront
        rw [hall, List.prefix_cons_inj]
        exact hpiece.trans (List.prefix_append piece rest)
      · exact hsuffix
    · exact Or.inr
  constructor
  · rintro ⟨hsuffix, hfirst⟩
    refine ⟨(hcut piece (List.prefix_refl piece)).mp hsuffix, fun front hpiece hends => ?_⟩
    have hcons := hfirst (c :: front) ((List.prefix_cons_inj c).mpr hpiece)
      ((hcut front hpiece).mpr hends)
    exact List.tail_eq_of_cons_eq hcons
  · rintro ⟨hsuffix, hfirst⟩
    refine ⟨(hcut piece (List.prefix_refl piece)).mpr hsuffix, fun front hpiece hends => ?_⟩
    cases front with
    | nil => exact absurd (List.suffix_nil.mp hends) hword
    | cons d front =>
        obtain ⟨rfl, hrest⟩ := List.cons_prefix_cons.mp hpiece
        rw [hfirst front hrest ((hcut front hrest).mp hends)]

theorem scansTo_cons_iff {c : Char} {scanned rest : List Char}
    (hfront : ¬ word <+: c :: (scanned ++ rest)) (hword : word ≠ []) :
    ScansTo word (c :: scanned) ↔ ScansTo word scanned := by
  constructor
  · intro h
    generalize hall : c :: scanned = all at h
    cases h with
    | last hpiece =>
        rw [← hall] at hpiece
        exact .last ((endsFirst_cons_iff hfront hword).mp hpiece)
    | @cons piece more hpiece hmore =>
        cases piece with
        | nil => exact absurd (List.suffix_nil.mp hpiece.1) hword
        | cons d piece =>
            rw [List.cons_append, List.cons.injEq] at hall
            obtain ⟨rfl, rfl⟩ := hall
            rw [List.append_assoc] at hfront
            exact .cons ((endsFirst_cons_iff hfront hword).mp hpiece) hmore
  · intro h
    cases h with
    | last hpiece => exact .last ((endsFirst_cons_iff hfront hword).mpr hpiece)
    | @cons piece more hpiece hmore =>
        rw [List.append_assoc] at hfront
        exact .cons ((endsFirst_cons_iff hfront hword).mpr hpiece) hmore

/-- A text where the word stands at the front has it as its first piece. -/
theorem scansTo_front_iff {after rest : List Char} :
    (∃ scanned, ScansTo word scanned ∧ word ++ after = scanned ++ rest)
      ↔ rest = after ∨ ∃ scanned, ScansTo word scanned ∧ after = scanned ++ rest := by
  have hpieces : ∀ {piece more : List Char}, EndsFirst word piece → word ++ after = piece ++ more →
      word = piece ∧ after = more := by
    intro piece more hpiece hall
    have hfront : word <+: piece :=
      List.prefix_of_prefix_length_le ⟨after, hall⟩ ⟨more, rfl⟩ hpiece.1.length_le
    obtain rfl := hpiece.2 word hfront (List.suffix_refl word)
    exact ⟨rfl, List.append_cancel_left hall⟩
  constructor
  · rintro ⟨scanned, hscan, hall⟩
    cases hscan with
    | last hpiece => exact .inl (hpieces hpiece hall).2.symm
    | @cons piece more hpiece hmore =>
        rw [List.append_assoc] at hall
        exact .inr ⟨more, hmore, (hpieces hpiece hall).2⟩
  · rintro (rfl | ⟨scanned, hscan, rfl⟩)
    · exact ⟨word, .last endsFirst_self, rfl⟩
    · exact ⟨word ++ scanned, .cons endsFirst_self hscan, (List.append_assoc _ _ _).symm⟩

/-- What a scan leaves behind the occurrences that it finds. -/
theorem mem_afterOccurrences_iff {first : Char} {more cs rest : List Char} :
    rest ∈ afterOccurrences first more cs
      ↔ ∃ scanned, ScansTo (first :: more) scanned ∧ cs = scanned ++ rest := by
  have hword : first :: more ≠ [] := List.cons_ne_nil _ _
  have hscanned : ∀ {scanned}, ScansTo (first :: more) scanned → scanned ≠ [] := by
    rintro _ h rfl
    exact hword (List.suffix_nil.mp h.isSuffix)
  fun_induction afterOccurrences first more cs with
  | case1 =>
      constructor
      · intro h
        cases h
      · rintro ⟨scanned, hscan, hnil⟩
        exact absurd (List.append_eq_nil_iff.mp hnil.symm).1 (hscanned hscan)
  | case2 c tail after hfound ih =>
      split at hfound
      · rename_i hc
        rw [after?_eq_some_iff] at hfound
        have hall : c :: tail = first :: more ++ after := by rw [hc, hfound, List.cons_append]
        rw [List.mem_cons, hall]
        exact (or_congr_right ih).trans scansTo_front_iff.symm
      · cases hfound
  | case3 c tail hmissing ih =>
      have hfront : ¬ first :: more <+: c :: tail := by
        rintro ⟨after, hall⟩
        rw [List.cons_append, List.cons.injEq] at hall
        obtain ⟨rfl, hall⟩ := hall
        rw [dif_pos rfl, after?_eq_some_iff.mpr hall.symm] at hmissing
        cases hmissing
      refine Iff.trans ih ?_
      constructor
      · rintro ⟨scanned, hscan, rfl⟩
        exact ⟨c :: scanned, (scansTo_cons_iff hfront hword).mpr hscan, rfl⟩
      · rintro ⟨scanned, hscan, hall⟩
        cases scanned with
        | nil => exact absurd rfl (hscanned hscan)
        | cons d scanned =>
            rw [List.cons_append, List.cons.injEq] at hall
            obtain ⟨rfl, rfl⟩ := hall
            exact ⟨scanned, (scansTo_cons_iff hfront hword).mp hscan, rfl⟩

theorem scansTo_iff {first : Char} {more cs : List Char} :
    ScansTo (first :: more) cs ↔ [] ∈ afterOccurrences first more cs := by
  rw [mem_afterOccurrences_iff]
  constructor
  · intro h
    exact ⟨cs, h, (List.append_nil cs).symm⟩
  · rintro ⟨scanned, h, rfl⟩
    rwa [List.append_nil]

instance {first : Char} {more cs : List Char} : Decidable (ScansTo (first :: more) cs) :=
  decidable_of_iff _ scansTo_iff.symm

/-! ## Overlaps -/

/-- A word whose first character occurs once does not overlap itself. -/
theorem unbordered_of_not_mem {c : Char} {cs : List Char} (h : c ∉ cs) : Unbordered (c :: cs) := by
  intro part hpart hprefix hsuffix
  cases part with
  | nil => exact absurd rfl hpart
  | cons d part =>
      obtain ⟨rfl, -⟩ := List.cons_prefix_cons.mp hprefix
      rcases List.suffix_cons_iff.mp hsuffix with hall | hsuffix
      · exact hall
      · exact absurd (hsuffix.mem List.mem_cons_self) h

/-- A word that does not overlap itself is found wherever it stands. -/
theorem scansTo_append (hword : Unbordered word) (hnil : word ≠ []) (front : List Char) :
    ScansTo word (front ++ word) := by
  induction hn : front.length using Nat.strongRecOn generalizing front with
  | ind n ih =>
      subst hn
      cases front with
      | nil => exact .last endsFirst_self
      | cons c front =>
          by_cases hfront : word <+: c :: front ++ word
          · obtain ⟨after, hall⟩ := hfront
            have hbehind : ∃ more, c :: front = word ++ more := by
              rcases List.append_eq_append_iff.mp hall with
                ⟨more, hmore, -⟩ | ⟨part, hpart, hafter⟩
              · exact ⟨more, hmore⟩
              · by_cases hpartNil : part = []
                · rw [hpartNil, List.append_nil] at hpart
                  exact ⟨[], by rw [hpart, List.append_nil]⟩
                · have hsame := hword part hpartNil ⟨after, hafter.symm⟩ ⟨c :: front, hpart.symm⟩
                  have hlength := congrArg List.length hpart
                  rw [hsame, List.length_append, List.length_cons] at hlength
                  omega
            obtain ⟨more, hmore⟩ := hbehind
            have hpos := List.length_pos_iff.mpr hnil
            rw [hmore, List.append_assoc]
            refine .cons endsFirst_self (ih more.length ?_ more rfl)
            rw [hmore, List.length_append]
            omega
          · have hfront : ¬ word <+: c :: (front ++ word ++ []) := by rwa [List.append_nil]
            exact (scansTo_cons_iff hfront hnil).mpr
              (ih front.length (Nat.lt_succ_self _) front rfl)

end DataTree.Path
