import DataTree.Path.Match
import DataTree.Proofs.Path.Canonical

/-!
# Quotes in canonical paths

Slashes and brackets inside a quoted value are text, outside of one they are
syntax, and which of the two a place in a path is depends on the quotes before
it.  A character acts on what may be open there, nothing or one of the two
quotes, as a permutation: a quote swaps being open with nothing being open and
leaves the other quote open.  So a text that closes all of its own quotes leaves
nothing open only where nothing was open before it, wherever it stands.

In the canonical text of a step all quotes are closed, slashes stand inside of
them only, and each of its predicates ends at the first bracket that closes
outside of them.

## Main definitions

* `quoteAfter` — the quote open behind a text.
* `bare` — the characters outside of quotes.
* `Inert`, `Sealed` — a text without syntax of its own, one without slashes.

## Main results

* `quoteAfter_injective` — reading a text loses nothing of what was open.
* `isKeyPredicate_append_inj` — a key predicate is told from what follows it.
* `isKeyPredicate_bracketed`, `WrittenStep.Keyed.sealed` — the canonical texts of
  groups and steps.
-/

namespace DataTree.Path

/-! ## Open quotes -/

/-- The quote open behind a character. -/
def quoteStep (quote : Option Char) (c : Char) : Option Char :=
  match quote with
  | some q => if c = q then none else some q
  | none => if c = '\'' || c = '"' then some c else none

/-- The quote open behind a text. -/
def quoteAfter (quote : Option Char) (cs : List Char) : Option Char := cs.foldl quoteStep quote

/-- What can be open: nothing, or one of the two quotes. -/
def IsQuote (quote : Option Char) : Prop := quote = none ∨ quote = some '\'' ∨ quote = some '"'

@[simp] theorem quoteAfter_nil (quote : Option Char) : quoteAfter quote [] = quote := rfl

@[simp] theorem quoteAfter_cons (quote : Option Char) (c : Char) (cs : List Char) :
    quoteAfter quote (c :: cs) = quoteAfter (quoteStep quote c) cs := rfl

@[simp] theorem quoteAfter_append (quote : Option Char) (a b : List Char) :
    quoteAfter quote (a ++ b) = quoteAfter (quoteAfter quote a) b := List.foldl_append

theorem isQuote_none : IsQuote none := .inl rfl

theorem IsQuote.step {quote : Option Char} (h : IsQuote quote) (c : Char) :
    IsQuote (quoteStep quote c) := by
  rcases h with rfl | rfl | rfl
  · by_cases hc : c = '\'' ∨ c = '"'
    · rcases hc with rfl | rfl
      · exact .inr (.inl rfl)
      · exact .inr (.inr rfl)
    · refine .inl ?_
      simpa [quoteStep] using hc
  · by_cases hc : c = '\''
    · exact .inl (by simp [quoteStep, hc])
    · exact .inr (.inl (by simp [quoteStep, hc]))
  · by_cases hc : c = '"'
    · exact .inl (by simp [quoteStep, hc])
    · exact .inr (.inr (by simp [quoteStep, hc]))

theorem IsQuote.after {quote : Option Char} (h : IsQuote quote) (cs : List Char) :
    IsQuote (quoteAfter quote cs) := by
  induction cs generalizing quote with
  | nil => exact h
  | cons c cs ih => exact ih (h.step c)

/-- A character undoes what it does. -/
theorem quoteStep_quoteStep {quote : Option Char} (h : IsQuote quote) (c : Char) :
    quoteStep (quoteStep quote c) c = quote := by
  rcases h with rfl | rfl | rfl
  · by_cases hc : c = '\'' ∨ c = '"'
    · simp [quoteStep, hc]
    · simp [quoteStep, hc]
  · by_cases hc : c = '\''
    · simp [quoteStep, hc]
    · simp [quoteStep, hc]
  · by_cases hc : c = '"'
    · simp [quoteStep, hc]
    · simp [quoteStep, hc]

/-- What was open before a text can be told from what is open behind it. -/
theorem quoteAfter_injective {p q : Option Char} (hp : IsQuote p) (hq : IsQuote q)
    {cs : List Char} (h : quoteAfter p cs = quoteAfter q cs) : p = q := by
  induction cs generalizing p q with
  | nil => exact h
  | cons c cs ih =>
      have hstep : quoteStep p c = quoteStep q c := ih (hp.step c) (hq.step c) h
      rw [← quoteStep_quoteStep hp c, hstep, quoteStep_quoteStep hq c]

/-! ## Outside of quotes -/

/-- The characters of a text outside of quotes. -/
def bare : Option Char → List Char → List Char
  | _, [] => []
  | none, c :: cs => c :: bare (quoteStep none c) cs
  | some q, c :: cs => bare (quoteStep (some q) c) cs

@[simp] theorem bare_nil (quote : Option Char) : bare quote [] = [] := by
  cases quote <;> rfl

theorem bare_append (quote : Option Char) (a b : List Char) :
    bare quote (a ++ b) = bare quote a ++ bare (quoteAfter quote a) b := by
  induction a generalizing quote with
  | nil => simp
  | cons c a ih =>
      cases quote with
      | none => simp [bare, ih]
      | some q => simp [bare, ih]

/-- Between quotes nothing stands outside of them. -/
theorem quoteAfter_of_not_mem {q : Char} {v : List Char} (hv : q ∉ v) :
    quoteAfter (some q) v = some q ∧ bare (some q) v = [] := by
  induction v with
  | nil => simp
  | cons c v ih =>
      have hc : c ≠ q := fun h => hv (h ▸ List.mem_cons_self)
      have hstep : quoteStep (some q) c = some q := if_neg hc
      rw [quoteAfter_cons, bare, hstep]
      exact ih fun h => hv (List.mem_cons_of_mem c h)

/-! ## Texts without syntax -/

/-- Brackets and slashes. -/
def isSyntax (c : Char) : Bool := c = '/' || c = '[' || c = ']'

/-- Whether a character is neither syntax nor a quote. -/
def isPlain (c : Char) : Bool := !(['/', '[', ']', '\'', '"'].contains c)

theorem isPlain_iff {c : Char} :
    isPlain c = true ↔ isSyntax c = false ∧ c ≠ '\'' ∧ c ≠ '"' := by
  simp [isPlain, isSyntax, and_assoc]

/-- The characters of a class without syntax and quotes are plain. -/
theorem isPlain_of_class {p : Char → Bool}
    (hp : ['/', '[', ']', '\'', '"'].any p = false) {c : Char} (hc : p c = true) :
    isPlain c = true := by
  rw [isPlain, Bool.not_eq_true', ← Bool.not_eq_true]
  intro hmem
  exact List.any_eq_false.mp hp c (List.contains_iff_mem.mp hmem) hc

theorem isPlain_of_isName {w : List Char} (h : IsName w) : ∀ c ∈ w, isPlain c = true := by
  have hidentifier : ∀ {w : List Char}, IsIdentifier w → ∀ c ∈ w, isPlain c = true := by
    intro w hw
    cases w with
    | nil => cases hw
    | cons c w =>
        refine List.forall_mem_cons.mpr ⟨?_, fun d hd => ?_⟩
        · exact isPlain_of_class (by decide) hw.1
        · exact isPlain_of_class (by decide) (hw.2 d hd)
  rcases h with ha | ⟨a, b, ha, hb, rfl⟩
  · exact hidentifier ha
  · exact List.forall_mem_append.mpr
      ⟨hidentifier ha, List.forall_mem_cons.mpr ⟨by decide, hidentifier hb⟩⟩

/-- Whether a text closes its quotes and has no bracket and no slash outside of
them. -/
structure Inert (w : List Char) : Prop where
  closed : quoteAfter none w = none
  bare : ∀ c ∈ bare none w, isSyntax c = false

namespace Inert

variable {v w : List Char}

theorem nil : Inert [] := ⟨rfl, by simp⟩

theorem append (hv : Inert v) (hw : Inert w) : Inert (v ++ w) := by
  constructor
  · rw [quoteAfter_append, hv.closed, hw.closed]
  · rw [bare_append, hv.closed]
    exact List.forall_mem_append.mpr ⟨hv.bare, hw.bare⟩

theorem of_plain (h : ∀ c ∈ w, isPlain c = true) : Inert w := by
  induction w with
  | nil => exact nil
  | cons c w ih =>
      obtain ⟨hplain, hsingle, hdouble⟩ := isPlain_iff.mp (h c List.mem_cons_self)
      have hrest := ih fun d hd => h d (List.mem_cons_of_mem c hd)
      have hstep : quoteStep none c = none := by simp [quoteStep, hsingle, hdouble]
      constructor
      · rw [quoteAfter_cons, hstep, hrest.closed]
      · rw [Path.bare, hstep]
        exact List.forall_mem_cons.mpr ⟨hplain, hrest.bare⟩

theorem of_quotedAs (h : QuotedAs v w) : Inert w := by
  obtain ⟨q, hq, hv, rfl⟩ := h
  obtain ⟨hopen, hinside⟩ := quoteAfter_of_not_mem hv
  have hstep : quoteStep none q = some q := by
    rcases hq with rfl | rfl <;> rfl
  have hclose : quoteStep (some q) q = none := if_pos rfl
  have hplain : isSyntax q = false := by
    rcases hq with rfl | rfl <;> rfl
  constructor
  · rw [List.cons_append, quoteAfter_cons, hstep, quoteAfter_append, hopen, quoteAfter_cons, hclose]
    rfl
  · rw [List.cons_append, Path.bare, hstep, bare_append, hinside, hopen, List.nil_append,
      Path.bare, bare_nil]
    exact List.forall_mem_singleton.mpr hplain

theorem of_isName (h : IsName w) : Inert w := of_plain (isPlain_of_isName h)

theorem ofInt (n : Int) : Inert (Decimal.ofInt n) := by
  have hdigits : ∀ m, ∀ c ∈ Decimal.digits m, isPlain c = true := fun m c hc =>
    isPlain_of_class (by decide) (Decimal.isDigit_of_mem_digits hc)
  cases n with
  | ofNat n => exact of_plain (hdigits n)
  | negSucc n => exact of_plain (List.forall_mem_cons.mpr ⟨by decide, hdigits (n + 1)⟩)

theorem of_literalAs {l : Literal} (h : LiteralAs l w) : Inert l.chars := by
  cases l with
  | integer n => exact ofInt n
  | text s => exact of_quotedAs (quotedAs_quoted h)

theorem of_conditionAs {c : Condition} (h : ConditionAs c w) : Inert c.chars := by
  obtain ⟨_, _, _, hleaf, _, _, hvalue, -⟩ := h
  have hat : Inert ['@'] := of_plain (List.all_eq_true.mp (by decide))
  have hsymbol : Inert c.comparison.symbol.toList := by
    cases c.comparison <;> exact of_plain (List.all_eq_true.mp (by decide))
  exact ((hat.append (of_isName hleaf)).append hsymbol).append (of_literalAs hvalue)

theorem of_joinedAs {more : List (Connective × Condition)} (h : JoinedAs more w) :
    Inert (more.flatMap joinedChars) := by
  induction h with
  | nil => exact nil
  | @cons k c more _ _ _ _ _ _ hc _ ih =>
      have hword : Inert (' ' :: k.word.toList ++ [' ']) := by
        cases k <;> exact of_plain (List.all_eq_true.mp (by decide))
      have hjoined : joinedChars (k, c) = (' ' :: k.word.toList ++ [' ']) ++ c.chars := by
        simp [joinedChars]
      rw [List.flatMap_cons, hjoined]
      exact (hword.append (of_conditionAs hc)).append ih

end Inert

/-! ## Predicates -/

/-- What closes a bracket is behind the inert texts in it. -/
theorem closesAtEnd_append {w : List Char} (hw : Inert w) (rest : List Char) :
    closesAtEnd none (w ++ rest) = closesAtEnd none rest := by
  have hall : ∀ quote, IsQuote quote → (∀ c ∈ bare quote w, isSyntax c = false) →
      closesAtEnd quote (w ++ rest) = closesAtEnd (quoteAfter quote w) rest := by
    clear hw
    induction w with
    | nil => exact fun _ _ _ => rfl
    | cons c w ih =>
        intro quote hquote hbare
        rw [List.cons_append, quoteAfter_cons]
        cases quote with
        | some q => exact ih _ (hquote.step c) hbare
        | none =>
            obtain ⟨hc, hbare⟩ := List.forall_mem_cons.mp hbare
            simp only [isSyntax, Bool.or_eq_false_iff, decide_eq_false_iff_not] at hc
            rw [← ih _ (hquote.step c) hbare, closesAtEnd, if_neg hc.1.2, if_neg hc.2, quoteStep]
            split <;> rfl
  rw [hall none isQuote_none hw.bare, hw.closed]

/-- A bracket closes at one place only: texts that end where it does are told
from what follows them. -/
theorem closesAtEnd_append_inj {quote : Option Char} {a b x y : List Char}
    (ha : closesAtEnd quote a = true) (hb : closesAtEnd quote b = true)
    (h : a ++ x = b ++ y) : a = b ∧ x = y := by
  induction a generalizing quote b with
  | nil => cases quote <;> cases ha
  | cons c a ih =>
      cases b with
      | nil => cases quote <;> cases hb
      | cons d b =>
          rw [List.cons_append, List.cons_append, List.cons.injEq] at h
          obtain ⟨rfl, h⟩ := h
          have hrest : ∀ {next : Option Char}, closesAtEnd next a = true →
              closesAtEnd next b = true → c :: a = c :: b ∧ x = y := by
            intro next ha hb
            obtain ⟨rfl, hxy⟩ := ih ha hb h
            exact ⟨rfl, hxy⟩
          cases quote with
          | some q => exact hrest ha hb
          | none =>
              rw [closesAtEnd] at ha hb
              split at ha
              · rename_i hc
                rw [if_pos hc] at hb
                exact hrest ha hb
              · rename_i hc
                rw [if_neg hc] at hb
                split at ha
                · cases ha
                · rename_i hopen
                  rw [if_neg hopen] at hb
                  split at ha
                  · rename_i hclose
                    rw [if_pos hclose] at hb
                    rw [List.isEmpty_iff] at ha hb
                    subst ha hb
                    exact ⟨rfl, h⟩
                  · rename_i hclose
                    rw [if_neg hclose] at hb
                    exact hrest ha hb

/-- The bracket that closes leaves no quote open. -/
theorem quoteAfter_of_closesAtEnd {quote : Option Char} {cs : List Char}
    (h : closesAtEnd quote cs = true) : quoteAfter quote cs = none := by
  fun_induction closesAtEnd quote cs with
  | case1 => cases h
  | case2 q c cs ih => exact ih h
  | case3 c cs hc ih =>
      have hstep : quoteStep none c = some c := if_pos hc
      rw [quoteAfter_cons, hstep]
      exact ih h
  | case4 => cases h
  | case5 cs =>
      obtain rfl := List.isEmpty_iff.mp h
      rfl
  | case6 c cs hc _ _ ih =>
      have hstep : quoteStep none c = none := if_neg hc
      rw [quoteAfter_cons, hstep]
      exact ih h

theorem exists_of_isKeyPredicate {key : List Char} (h : isKeyPredicate key = true) :
    ∃ cs, key = '[' :: '@' :: cs ∧ closesAtEnd none cs = true := by
  unfold isKeyPredicate at h
  split at h
  · exact ⟨_, rfl, h⟩
  · cases h

theorem quoteAfter_of_isKeyPredicate {key : List Char} (h : isKeyPredicate key = true) :
    quoteAfter none key = none := by
  obtain ⟨cs, rfl, hcs⟩ := exists_of_isKeyPredicate h
  have hlead : quoteAfter none ('[' :: '@' :: cs) = quoteAfter none cs := rfl
  rw [hlead]
  exact quoteAfter_of_closesAtEnd hcs

/-- A key predicate is told from what follows it. -/
theorem isKeyPredicate_append_inj {a b x y : List Char} (ha : isKeyPredicate a = true)
    (hb : isKeyPredicate b = true) (h : a ++ x = b ++ y) : a = b ∧ x = y := by
  obtain ⟨a, rfl, ha⟩ := exists_of_isKeyPredicate ha
  obtain ⟨b, rfl, hb⟩ := exists_of_isKeyPredicate hb
  simp only [List.cons_append, List.cons.injEq, true_and] at h
  obtain ⟨rfl, rfl⟩ := closesAtEnd_append_inj ha hb h
  exact ⟨rfl, rfl⟩

/-! ## Canonical groups and steps -/

theorem Inert.of_predicateAs {g : ConditionGroup} {w : List Char}
    (h : PredicateAs (.conditions g) w) : Inert g.chars := by
  obtain ⟨_, _, _, hbody, -⟩ := h
  cases hbody with
  | conditions hc hmore => exact (of_conditionAs hc).append (of_joinedAs hmore)

/-- The canonical text of a group is a key predicate. -/
theorem isKeyPredicate_bracketed {g : ConditionGroup} {w : List Char}
    (h : PredicateAs (.conditions g) w) : isKeyPredicate g.bracketed = true := by
  have hinert := Inert.of_predicateAs h
  have hclosed : closesAtEnd none (g.chars ++ [']']) = true := by
    rw [closesAtEnd_append hinert]
    rfl
  have hlead : ∃ cs, g.chars = '@' :: cs := ⟨_, rfl⟩
  obtain ⟨cs, hcs⟩ := hlead
  rw [hcs, List.cons_append, closesAtEnd] at hclosed
  rw [ConditionGroup.bracketed, hcs]
  exact hclosed

/-- Whether a text closes its quotes and has no slash outside of them. -/
structure Sealed (w : List Char) : Prop where
  closed : quoteAfter none w = none
  bare : '/' ∉ bare none w

theorem Inert.sealed {w : List Char} (h : Inert w) : Sealed w :=
  ⟨h.closed, fun hmem => Bool.noConfusion (h.bare _ hmem)⟩

theorem Sealed.append {v w : List Char} (hv : Sealed v) (hw : Sealed w) : Sealed (v ++ w) := by
  constructor
  · rw [quoteAfter_append, hv.closed, hw.closed]
  · rw [bare_append, hv.closed, List.mem_append]
    exact not_or_intro hv.bare hw.bare

/-- A slash in a sealed text stands between quotes. -/
theorem Sealed.quoteAfter_ne_none {v w : List Char} (h : Sealed (v ++ '/' :: w)) :
    quoteAfter none v ≠ none := by
  intro hnone
  apply h.bare
  rw [bare_append, hnone, Path.bare]
  exact List.mem_append_right _ List.mem_cons_self

theorem exists_of_isConditions {p : Predicate} (h : p.isConditions = true) :
    ∃ g, p = .conditions g := by
  cases p with
  | conditions g => exact ⟨g, rfl⟩
  | text => cases h
  | contains => cases h

/-- Whether a step can be read and has no predicates but conditions. -/
structure WrittenStep.Keyed (s : WrittenStep) : Prop where
  spelled : StepAs s s.chars
  conditions : ∀ p ∈ s.predicates, p.isConditions = true

namespace WrittenStep.Keyed

variable {s : WrittenStep} (h : s.Keyed)

include h

theorem isName : IsName s.name.toList := h.spelled.choose_spec.1

theorem predicates : ∀ p ∈ s.predicates, PredicateAs p p.chars :=
  predicatesAs_iff.mp ⟨_, h.spelled.choose_spec.2.1⟩

/-- The canonical text of a step with conditions only. -/
theorem sealed : Sealed s.chars := by
  have hpredicates : ∀ ps : List Predicate, (∀ p ∈ ps, PredicateAs p p.chars) →
      (∀ p ∈ ps, p.isConditions = true) → Sealed (ps.flatMap Predicate.chars) := by
    intro ps hps hconditions
    induction ps with
    | nil => exact Inert.nil.sealed
    | cons p ps ih =>
        obtain ⟨hp, hrest⟩ := List.forall_mem_cons.mp hps
        obtain ⟨hpc, hrestc⟩ := List.forall_mem_cons.mp hconditions
        obtain ⟨g, rfl⟩ := exists_of_isConditions hpc
        have hopen : Sealed ['['] := ⟨rfl, by decide⟩
        have hclose : Sealed [']'] := ⟨rfl, by decide⟩
        exact ((hopen.append (Inert.of_predicateAs hp).sealed).append hclose).append
          (ih hrest hrestc)
  exact (Inert.of_isName h.isName).sealed.append (hpredicates _ h.predicates h.conditions)

end WrittenStep.Keyed

end DataTree.Path
