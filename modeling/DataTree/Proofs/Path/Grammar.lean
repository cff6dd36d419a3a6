import DataTree.Proofs.Outcome
import DataTree.Proofs.Path.Spelling

/-!
# The grammar of paths

The spellings of conditions, predicates, steps and whole paths, each put
together from the spellings of its parts and the blanks between them.  The
readers are recursive and stop where a piece cannot go on; the relations
here only concatenate, so that they can be read as the grammar of the
language.

## Main results

* `readStep_append`, `step_of_readStep` — a step is read from its spellings
  and from nothing else.
* `read_eq_ok_iff` — a text is read as a path exactly if it spells it.
-/

namespace DataTree.Path

open DataTree.Text

/-! ## Conditions -/

/-- `@name op value`, with blanks around the operator. -/
def ConditionAs (c : Condition) (w : List Char) : Prop :=
  ∃ b₁ b₂ v, IsName c.leaf.toList ∧ Blank b₁ ∧ Blank b₂ ∧ LiteralAs c.value v
    ∧ w = '@' :: c.leaf.toList ++ (b₁ ++ (c.comparison.symbol.toList ++ (b₂ ++ v)))

/-- The further conditions of a group, each behind its connective, and the
blanks after the last one. -/
inductive JoinedAs : List (Connective × Condition) → List Char → Prop where
  | nil {b : List Char} : Blank b → JoinedAs [] b
  | cons {k : Connective} {c : Condition} {rest : List (Connective × Condition)}
      {b₁ b₂ w t : List Char} :
      Blank b₁ → Blank b₂ → ConditionAs c w → JoinedAs rest t →
        JoinedAs ((k, c) :: rest) (b₁ ++ (k.word.toList ++ (b₂ ++ (w ++ t))))

theorem token_append (t : String) (rest : List Char) : token t (t.toList ++ rest) = .ok rest :=
  token_eq_ok_iff.mpr rfl

/-- A signed run of digits starts with its sign or a digit. -/
theorem signed_notBefore {p : Char → Bool} {negative : Bool} {sgn ds rest : List Char}
    (hs : SignedAs negative sgn) (hne : ds ≠ []) (hdig : ∀ c ∈ ds, c.isDigit = true)
    (hminus : p '-' = false) (hplus : p '+' = false)
    (hdigit : ∀ c, c.isDigit = true → p c = false) : NotBefore p (sgn ++ (ds ++ rest)) := by
  cases ds with
  | nil => exact absurd rfl hne
  | cons d ds =>
      have hd := hdigit d (hdig d (by simp))
      cases negative with
      | true =>
          have hs : sgn = ['-'] := hs
          subst hs
          simpa using hminus
      | false =>
          rcases hs with rfl | rfl
          · simpa using hd
          · simpa using hplus

/-- A value starts with a quote, a sign or a digit. -/
theorem literal_notBefore {p : Char → Bool} {l : Literal} {w rest : List Char}
    (hw : LiteralAs l w) (hsingle : p '\'' = false) (hdouble : p '"' = false)
    (hminus : p '-' = false) (hplus : p '+' = false)
    (hdigit : ∀ c, c.isDigit = true → p c = false) : NotBefore p (w ++ rest) := by
  cases l with
  | integer n =>
      obtain ⟨negative, sgn, ds, hs, hne, hdig, -, -, rfl⟩ := hw
      rw [List.append_assoc]
      exact signed_notBefore hs hne hdig hminus hplus hdigit
  | text v =>
      obtain ⟨q, hq, -, rfl⟩ := hw
      rcases hq with rfl | rfl
      · simpa using hsingle
      · simpa using hdouble

theorem readLiteral_append {l : Literal} {w rest : List Char} (hw : LiteralAs l w)
    (hrest : NotBefore Char.isDigit rest) : readLiteral (w ++ rest) = .ok (l, rest) := by
  cases l with
  | integer n =>
      have hquote : NotBefore (fun c => decide (c = '\'' ∨ c = '"')) (w ++ rest) := by
        obtain ⟨negative, sgn, ds, hs, hne, hdig, -, -, rfl⟩ := hw
        rw [List.append_assoc]
        refine signed_notBefore hs hne hdig (by decide) (by decide) ?_
        rintro c hc
        simp only [decide_eq_false_iff_not]
        rintro (rfl | rfl) <;> cases hc
      unfold readLiteral
      split
      · rename_i heq
        simp [heq] at hquote
      · rename_i heq
        simp [heq] at hquote
      · rw [readInteger_append hw hrest]
        rfl
  | text v =>
      have hread : readQuoted (w ++ rest) = .ok (v, rest) := readQuoted_append hw
      unfold readLiteral
      split
      · rw [hread]
        rfl
      · rw [hread]
        rfl
      · rename_i hs hd
        obtain ⟨q, hq, hv, rfl⟩ := hw
        rcases hq with rfl | rfl
        · exact absurd rfl (hs _)
        · exact absurd rfl (hd _)

theorem literal_of_readLiteral {cs rest : List Char} {l : Literal}
    (h : readLiteral cs = .ok (l, rest)) : ∃ w, LiteralAs l w ∧ cs = w ++ rest := by
  unfold readLiteral at h
  split at h
  · obtain ⟨⟨v, r⟩, hread, heq⟩ := map_eq_ok_iff.mp h
    cases heq
    exact quoted_of_readQuoted hread
  · obtain ⟨⟨v, r⟩, hread, heq⟩ := map_eq_ok_iff.mp h
    cases heq
    exact quoted_of_readQuoted hread
  · obtain ⟨⟨n, r⟩, hread, heq⟩ := map_eq_ok_iff.mp h
    cases heq
    exact integer_of_readInteger hread

theorem comparison_notBefore (op : Comparison) (rest : List Char) :
    NotBefore isBlank (op.symbol.toList ++ rest)
      ∧ NotBefore continuesName (op.symbol.toList ++ rest) := by
  cases op <;>
    exact ⟨notBefore_append rfl (by decide) rest, notBefore_append rfl (by decide) rest⟩

theorem readComparison_append (op : Comparison) {rest : List Char}
    (hrest : NotBefore (fun c => decide (c = '=')) rest) :
    readComparison (op.symbol.toList ++ rest) = .ok (op, rest) := by
  cases op with
  | equal => rfl
  | atLeast => rfl
  | atMost => rfl
  | greater =>
      cases rest with
      | nil => rfl
      | cons c rest =>
          show readComparison ('>' :: c :: rest) = _
          unfold readComparison
          split <;> simp_all
  | less =>
      cases rest with
      | nil => rfl
      | cons c rest =>
          show readComparison ('<' :: c :: rest) = _
          unfold readComparison
          split <;> simp_all

theorem comparison_of_readComparison {cs rest : List Char} {op : Comparison}
    (h : readComparison cs = .ok (op, rest)) : cs = op.symbol.toList ++ rest := by
  unfold readComparison at h
  split at h <;> cases h <;> rfl

theorem isBlank_eq_false_of_isDigit {c : Char} (h : c.isDigit = true) : isBlank c = false := by
  rw [Bool.eq_false_iff, ne_eq, isBlank_iff]
  intro hc
  simp only [List.mem_cons, List.not_mem_nil, or_false] at hc
  rcases hc with rfl | rfl | rfl | rfl | rfl <;> cases h

theorem readCondition_append {c : Condition} {w rest : List Char} (hw : ConditionAs c w)
    (hrest : NotBefore Char.isDigit rest) : readCondition (w ++ rest) = .ok (c, rest) := by
  obtain ⟨b₁, b₂, v, hleaf, hb₁, hb₂, hv, rfl⟩ := hw
  have hop := comparison_notBefore c.comparison (b₂ ++ (v ++ rest))
  have hvalue : NotBefore isBlank (v ++ rest) :=
    literal_notBefore hv (by decide) (by decide) (by decide) (by decide)
      (fun d hd => isBlank_eq_false_of_isDigit hd)
  have heq : NotBefore (fun d => decide (d = '=')) (b₂ ++ (v ++ rest)) := by
    refine blank_notBefore hb₂ (by decide) ?_
    refine literal_notBefore hv (by decide) (by decide) (by decide) (by decide) ?_
    intro d hd
    rw [decide_eq_false_iff_not]
    rintro rfl
    cases hd
  unfold readCondition
  simp only [List.cons_append, List.append_assoc]
  refine bind_eq_ok_iff.mpr ⟨_, token_append "@" _, ?_⟩
  refine bind_eq_ok_iff.mpr ⟨_, readName_append hleaf (blank_notBefore hb₁ (by decide) hop.2), ?_⟩
  dsimp only
  rw [skipBlank_append hb₁ hop.1]
  refine bind_eq_ok_iff.mpr ⟨_, readComparison_append c.comparison heq, ?_⟩
  dsimp only
  rw [skipBlank_append hb₂ hvalue]
  refine bind_eq_ok_iff.mpr ⟨_, readLiteral_append hv hrest, ?_⟩
  rfl

theorem condition_of_readCondition {cs rest : List Char} {c : Condition}
    (h : readCondition cs = .ok (c, rest)) : ∃ w, ConditionAs c w ∧ cs = w ++ rest := by
  unfold readCondition at h
  obtain ⟨c₁, h₁, h⟩ := bind_eq_ok_iff.mp h
  obtain ⟨⟨leaf, c₂⟩, h₂, h⟩ := bind_eq_ok_iff.mp h
  obtain ⟨⟨op, c₃⟩, h₃, h⟩ := bind_eq_ok_iff.mp h
  obtain ⟨⟨v, c₄⟩, h₄, h⟩ := bind_eq_ok_iff.mp h
  cases h
  obtain ⟨hleaf, hcs₁⟩ := name_of_readName h₂
  obtain ⟨b₁, hb₁, hcs₂⟩ := exists_blank_append c₂
  obtain ⟨b₂, hb₂, hcs₃⟩ := exists_blank_append c₃
  obtain ⟨w, hw, hcs₄⟩ := literal_of_readLiteral h₄
  refine ⟨_, ⟨b₁, b₂, w, hleaf, hb₁, hb₂, hw, rfl⟩, ?_⟩
  rw [token_eq_ok_iff.mp h₁, hcs₁, hcs₂, comparison_of_readComparison h₃, hcs₃, hcs₄]
  simp

theorem readConnective?_append (k : Connective) (rest : List Char) :
    readConnective? (k.word.toList ++ rest) = some (k, rest) := by
  cases k <;> rfl

theorem connective_of_readConnective? {cs rest : List Char} {k : Connective}
    (h : readConnective? cs = some (k, rest)) : cs = k.word.toList ++ rest := by
  unfold readConnective? at h
  split at h
  · rename_i r hr
    cases h
    exact after?_eq_some_iff.mp hr
  · obtain ⟨r, hr, heq⟩ := Option.map_eq_some_iff.mp h
    cases heq
    exact after?_eq_some_iff.mp hr

theorem Blank.append {a b : List Char} (ha : Blank a) (hb : Blank b) : Blank (a ++ b) := by
  intro c hc
  rcases List.mem_append.mp hc with hc | hc
  · exact ha c hc
  · exact hb c hc

/-- Blanks may also stand before the further conditions. -/
theorem JoinedAs.blank_append {more : List (Connective × Condition)} {b t : List Char}
    (hb : Blank b) (h : JoinedAs more t) : JoinedAs more (b ++ t) := by
  cases h with
  | nil hb' => exact .nil (hb.append hb')
  | cons hb₁ hb₂ hc hrest =>
      rw [← List.append_assoc]
      exact .cons (hb.append hb₁) hb₂ hc hrest

/-- Blanks may also stand behind them. -/
theorem JoinedAs.append_blank {more : List (Connective × Condition)} {b t : List Char}
    (h : JoinedAs more t) (hb : Blank b) : JoinedAs more (t ++ b) := by
  induction h with
  | nil hb' => exact .nil (hb'.append hb)
  | cons hb₁ hb₂ hc _ ih =>
      simp only [List.append_assoc]
      exact .cons hb₁ hb₂ hc ih

/-- What follows a condition is no digit. -/
theorem JoinedAs.notBefore_isDigit {more : List (Connective × Condition)} {t : List Char}
    (h : JoinedAs more t) (rest : List Char) : NotBefore Char.isDigit (t ++ ']' :: rest) := by
  cases h with
  | nil hb => exact blank_notBefore hb (by decide) (by simp)
  | @cons k _ _ _ _ _ _ hb₁ _ _ _ =>
      rw [List.append_assoc, List.append_assoc]
      refine blank_notBefore hb₁ (by decide) ?_
      cases k <;> exact notBefore_append rfl (by decide) _

theorem readMoreConditions_append {more : List (Connective × Condition)} {t : List Char}
    (h : JoinedAs more t) (rest : List Char) :
    readMoreConditions (skipBlank (t ++ ']' :: rest)) = .ok (more, ']' :: rest) := by
  induction h with
  | nil hb =>
      rw [skipBlank_append hb (by simp [isBlank]), readMoreConditions]
      simp
  | @cons k c more b₁ b₂ w t hb₁ hb₂ hw hmore ih =>
      have hword : ∀ r, NotBefore isBlank (k.word.toList ++ r)
          ∧ (k.word.toList ++ r).head? ≠ some ']' := by
        intro r
        cases k <;> exact ⟨notBefore_append rfl (by decide) r, by simp [Connective.word]⟩
      have hcond : NotBefore isBlank (w ++ (t ++ ']' :: rest)) := by
        obtain ⟨_, _, _, _, _, _, _, rfl⟩ := hw
        exact notBefore_append rfl (by decide) _
      simp only [List.append_assoc]
      rw [skipBlank_append hb₁ (hword _).1, readMoreConditions, if_neg (hword _).2]
      split
      · rename_i hk
        rw [readConnective?_append] at hk
        cases hk
      · rename_i k' after hk
        rw [readConnective?_append] at hk
        cases hk
        rw [skipBlank_append hb₂ hcond]
        split
        · rename_i hc
          rw [readCondition_append hw (hmore.notBefore_isDigit rest)] at hc
          cases hc
        · rename_i hc
          rw [readCondition_append hw (hmore.notBefore_isDigit rest)] at hc
          cases hc
          rw [ih]
          rfl

theorem joined_of_readMoreConditions {cs rest : List Char} {more : List (Connective × Condition)}
    (h : readMoreConditions cs = .ok (more, rest)) : ∃ t, JoinedAs more t ∧ cs = t ++ rest := by
  fun_induction readMoreConditions cs generalizing more rest with
  | case1 cs hhead =>
      cases h
      exact ⟨[], .nil blank_nil, rfl⟩
  | case2 => cases h
  | case3 => cases h
  | case4 cs _ k afterWord hk c afterCondition hc ih =>
      obtain ⟨⟨m, r⟩, hm, heq⟩ := map_eq_ok_iff.mp h
      cases heq
      obtain ⟨t, ht, hcs⟩ := ih hm
      obtain ⟨w, hw, hcs₂⟩ := condition_of_readCondition hc
      obtain ⟨b, hb, hcs₁⟩ := exists_blank_append afterWord
      obtain ⟨b', hb', hcs₃⟩ := exists_blank_append afterCondition
      refine ⟨_, .cons blank_nil hb hw (ht.blank_append hb'), ?_⟩
      rw [connective_of_readConnective? hk, hcs₁, hcs₂, hcs₃, hcs]
      simp

/-! ## Predicates -/

/-- The content of a bracket behind its leading blanks, with the blanks that
end it. -/
inductive BodyAs : Predicate → List Char → Prop where
  | conditions {first : Condition} {rest : List (Connective × Condition)} {w t : List Char} :
      ConditionAs first w → JoinedAs rest t → BodyAs (.conditions ⟨first, rest⟩) (w ++ t)
  | text {v : String} {b₁ b₂ b₃ w : List Char} :
      Blank b₁ → Blank b₂ → Blank b₃ → QuotedAs v.toList w →
        BodyAs (.text v) ("text()".toList ++ (b₁ ++ '=' :: (b₂ ++ (w ++ b₃))))
  | contains {leaf v : String} {b₁ b₂ b₃ b₄ b₅ w : List Char} :
      Blank b₁ → Blank b₂ → Blank b₃ → Blank b₄ → Blank b₅ → IsName leaf.toList →
        QuotedAs v.toList w →
        BodyAs (.contains ⟨leaf, v⟩) ("contains(".toList
          ++ (b₁ ++ '@' :: (leaf.toList ++ (b₂ ++ ',' :: (b₃ ++ (w ++ (b₄ ++ ')' :: b₅)))))))

/-- A body in its brackets. -/
def PredicateAs (p : Predicate) (w : List Char) : Prop :=
  ∃ b body, Blank b ∧ BodyAs p body ∧ w = '[' :: (b ++ (body ++ [']']))

theorem quoted_notBefore {v w : List Char} (hw : QuotedAs v w) (rest : List Char) :
    NotBefore isBlank (w ++ rest) := by
  obtain ⟨q, hq, -, rfl⟩ := hw
  rcases hq with rfl | rfl
  · exact notBefore_append rfl (by decide) rest
  · exact notBefore_append rfl (by decide) rest

theorem condition_head {c : Condition} {w : List Char} (hw : ConditionAs c w) :
    w.head? = some '@' := by
  obtain ⟨_, _, _, _, _, _, _, rfl⟩ := hw
  rfl

/-- A lead that starts otherwise is not found. -/
theorem after?_eq_none_of_head {l c : Char} {lead w : List Char} (hw : w.head? = some c)
    (hne : l ≠ c) : after? (l :: lead) w = none := by
  cases w with
  | nil => cases hw
  | cons d w =>
      have hd : d = c := Option.some.inj hw
      simp [after?, hd, hne]

theorem head?_append_of_head? {c : Char} {w : List Char} (hw : w.head? = some c)
    (rest : List Char) : (w ++ rest).head? = some c := by
  rw [List.head?_append, hw]
  rfl

theorem readText_append {v : String} {b₁ b₂ w rest : List Char} (hb₁ : Blank b₁)
    (hb₂ : Blank b₂) (hw : QuotedAs v.toList w) :
    readText (b₁ ++ '=' :: (b₂ ++ (w ++ rest))) = .ok (.text v, rest) := by
  unfold readText
  rw [skipBlank_append hb₁ (by simp [isBlank])]
  refine bind_eq_ok_iff.mpr ⟨_, token_append "=" (b₂ ++ (w ++ rest)), ?_⟩
  rw [skipBlank_append hb₂ (quoted_notBefore hw rest)]
  exact bind_eq_ok_iff.mpr ⟨_, readQuoted_append hw, rfl⟩

theorem readContains_append {leaf v : String} {b₁ b₂ b₃ b₄ w rest : List Char} (hb₁ : Blank b₁)
    (hb₂ : Blank b₂) (hb₃ : Blank b₃) (hb₄ : Blank b₄) (hleaf : IsName leaf.toList)
    (hw : QuotedAs v.toList w) :
    readContains (b₁ ++ '@' :: (leaf.toList ++ (b₂ ++ ',' :: (b₃ ++ (w ++ (b₄ ++ ')' :: rest))))))
      = .ok (.contains ⟨leaf, v⟩, rest) := by
  have hcomma : NotBefore continuesName (',' :: (b₃ ++ (w ++ (b₄ ++ ')' :: rest)))) := by
    rw [notBefore_cons]
    decide
  unfold readContains
  rw [skipBlank_append hb₁ (by simp [isBlank])]
  refine bind_eq_ok_iff.mpr ⟨_, token_append "@" _, ?_⟩
  refine bind_eq_ok_iff.mpr ⟨_, readName_append hleaf (blank_notBefore hb₂ (by decide) hcomma), ?_⟩
  dsimp only
  rw [skipBlank_append hb₂ (by simp [isBlank])]
  refine bind_eq_ok_iff.mpr ⟨_, token_append "," (b₃ ++ (w ++ (b₄ ++ ')' :: rest))), ?_⟩
  rw [skipBlank_append hb₃ (quoted_notBefore hw _)]
  refine bind_eq_ok_iff.mpr ⟨_, readQuoted_append hw, ?_⟩
  dsimp only
  rw [skipBlank_append hb₄ (by simp [isBlank])]
  exact bind_eq_ok_iff.mpr ⟨_, token_append ")" _, rfl⟩

/-- A body is read up to the blanks before its closing bracket. -/
theorem readBody_append {p : Predicate} {body : List Char} (h : BodyAs p body)
    (rest : List Char) :
    ∃ r, readBody (body ++ ']' :: rest) = .ok (p, r) ∧ skipBlank r = ']' :: rest := by
  have hclose : NotBefore isBlank (']' :: rest) := by simp [isBlank]
  cases h with
  | @conditions first more w t hw ht =>
      have hhead : ((w ++ t) ++ ']' :: rest).head? = some '@' :=
        head?_append_of_head? (head?_append_of_head? (condition_head hw) t) _
      refine ⟨']' :: rest, ?_, skipBlank_append blank_nil hclose⟩
      unfold readBody
      rw [show "text()".toList = 't' :: "ext()".toList from rfl,
        show "contains(".toList = 'c' :: "ontains(".toList from rfl,
        after?_eq_none_of_head hhead (by decide), after?_eq_none_of_head hhead (by decide)]
      dsimp only
      unfold readConditions
      rw [List.append_assoc]
      refine bind_eq_ok_iff.mpr ⟨_, readCondition_append hw (ht.notBefore_isDigit rest), ?_⟩
      exact bind_eq_ok_iff.mpr ⟨_, readMoreConditions_append ht rest, rfl⟩
  | @text v b₁ b₂ b₃ w hb₁ hb₂ hb₃ hw =>
      refine ⟨b₃ ++ ']' :: rest, ?_, skipBlank_append hb₃ hclose⟩
      unfold readBody
      simp only [List.append_assoc, List.cons_append, after?_append]
      exact readText_append hb₁ hb₂ hw
  | @contains leaf v b₁ b₂ b₃ b₄ b₅ w hb₁ hb₂ hb₃ hb₄ hb₅ hleaf hw =>
      refine ⟨b₅ ++ ']' :: rest, ?_, skipBlank_append hb₅ hclose⟩
      unfold readBody
      rw [show "text()".toList = 't' :: "ext()".toList from rfl,
        after?_eq_none_of_head (head?_append_of_head? rfl _) (by decide)]
      simp only [List.append_assoc, List.cons_append, after?_append]
      exact readContains_append hb₁ hb₂ hb₃ hb₄ hleaf hw

theorem body_of_readBody {cs r rest : List Char} {p : Predicate} (h : readBody cs = .ok (p, r))
    (hr : skipBlank r = ']' :: rest) : ∃ body, BodyAs p body ∧ cs = body ++ ']' :: rest := by
  obtain ⟨b, hb, hend⟩ := exists_blank_append r
  rw [hr] at hend
  unfold readBody at h
  split at h
  · rename_i after hafter
    obtain ⟨c₁, h₁, h⟩ := bind_eq_ok_iff.mp h
    obtain ⟨⟨v, c₂⟩, h₂, h⟩ := bind_eq_ok_iff.mp h
    cases h
    obtain ⟨b₁, hb₁, hcs₁⟩ := exists_blank_append after
    obtain ⟨b₂, hb₂, hcs₂⟩ := exists_blank_append c₁
    obtain ⟨w, hw, hcs₃⟩ := quoted_of_readQuoted h₂
    refine ⟨_, .text hb₁ hb₂ hb hw, ?_⟩
    rw [after?_eq_some_iff.mp hafter, hcs₁, token_eq_ok_iff.mp h₁, hcs₂, hcs₃, hend]
    simp
  · split at h
    · rename_i after hafter
      obtain ⟨c₁, h₁, h⟩ := bind_eq_ok_iff.mp h
      obtain ⟨⟨leaf, c₂⟩, h₂, h⟩ := bind_eq_ok_iff.mp h
      obtain ⟨c₃, h₃, h⟩ := bind_eq_ok_iff.mp h
      obtain ⟨⟨v, c₄⟩, h₄, h⟩ := bind_eq_ok_iff.mp h
      obtain ⟨c₅, h₅, h⟩ := bind_eq_ok_iff.mp h
      cases h
      obtain ⟨hleaf, hcs₁⟩ := name_of_readName h₂
      obtain ⟨b₁, hb₁, hcs₂⟩ := exists_blank_append after
      obtain ⟨b₂, hb₂, hcs₃⟩ := exists_blank_append c₂
      obtain ⟨b₃, hb₃, hcs₄⟩ := exists_blank_append c₃
      obtain ⟨b₄, hb₄, hcs₅⟩ := exists_blank_append c₄
      obtain ⟨w, hw, hcs₆⟩ := quoted_of_readQuoted h₄
      refine ⟨_, .contains hb₁ hb₂ hb₃ hb₄ hb hleaf hw, ?_⟩
      rw [after?_eq_some_iff.mp hafter, hcs₂, token_eq_ok_iff.mp h₁, hcs₁, hcs₃,
        token_eq_ok_iff.mp h₃, hcs₄, hcs₆, hcs₅, token_eq_ok_iff.mp h₅, hend]
      simp
    · obtain ⟨⟨c, c₁⟩, h₁, h⟩ := bind_eq_ok_iff.mp h
      obtain ⟨⟨m, c₂⟩, h₂, h⟩ := bind_eq_ok_iff.mp h
      cases h
      obtain ⟨w, hw, hcs₁⟩ := condition_of_readCondition h₁
      obtain ⟨b₁, hb₁, hcs₂⟩ := exists_blank_append c₁
      obtain ⟨t, ht, hcs₃⟩ := joined_of_readMoreConditions h₂
      refine ⟨_, .conditions hw ((ht.append_blank hb).blank_append hb₁), ?_⟩
      rw [hcs₁, hcs₂, hcs₃, hend]
      simp

theorem body_notBefore {p : Predicate} {body : List Char} (h : BodyAs p body)
    (rest : List Char) : NotBefore isBlank (body ++ rest) := by
  cases h with
  | conditions hw _ =>
      exact notBefore_append (head?_append_of_head? (condition_head hw) _) (by decide) rest
  | text => exact notBefore_append (head?_append_of_head? rfl _) (by decide) rest
  | contains => exact notBefore_append (head?_append_of_head? rfl _) (by decide) rest

theorem readPredicate_append {p : Predicate} {w : List Char} (h : PredicateAs p w)
    (rest : List Char) : readPredicate (w ++ rest) = .ok (p, rest) := by
  obtain ⟨b, body, hb, hbody, rfl⟩ := h
  obtain ⟨r, hread, hr⟩ := readBody_append hbody rest
  unfold readPredicate
  simp only [List.cons_append, List.append_assoc, List.nil_append]
  refine bind_eq_ok_iff.mpr ⟨_, token_append "[" (b ++ (body ++ ']' :: rest)), ?_⟩
  rw [skipBlank_append hb (body_notBefore hbody _)]
  refine bind_eq_ok_iff.mpr ⟨_, hread, ?_⟩
  dsimp only
  rw [hr]
  exact bind_eq_ok_iff.mpr ⟨_, token_append "]" rest, rfl⟩

theorem predicate_of_readPredicate {cs rest : List Char} {p : Predicate}
    (h : readPredicate cs = .ok (p, rest)) : ∃ w, PredicateAs p w ∧ cs = w ++ rest := by
  unfold readPredicate at h
  obtain ⟨c₁, h₁, h⟩ := bind_eq_ok_iff.mp h
  obtain ⟨⟨q, c₂⟩, h₂, h⟩ := bind_eq_ok_iff.mp h
  obtain ⟨c₃, h₃, h⟩ := bind_eq_ok_iff.mp h
  cases h
  obtain ⟨b, hb, hcs₁⟩ := exists_blank_append c₁
  obtain ⟨body, hbody, hcs₂⟩ := body_of_readBody h₂ (token_eq_ok_iff.mp h₃)
  refine ⟨_, ⟨b, body, hb, hbody, rfl⟩, ?_⟩
  rw [token_eq_ok_iff.mp h₁, hcs₁, hcs₂]
  simp

/-! ## Steps -/

inductive PredicatesAs : List Predicate → List Char → Prop where
  | nil : PredicatesAs [] []
  | cons {p : Predicate} {ps : List Predicate} {w t : List Char} :
      PredicateAs p w → PredicatesAs ps t → PredicatesAs (p :: ps) (w ++ t)

/-- A name and its predicates. -/
def StepAs (s : WrittenStep) (w : List Char) : Prop :=
  ∃ t, IsName s.name.toList ∧ PredicatesAs s.predicates t ∧ w = s.name.toList ++ t

/-- Steps separated by slashes. -/
inductive StepsAs : Trail WrittenStep → List Char → Prop where
  | last {s : WrittenStep} {w : List Char} : StepAs s w → StepsAs ⟨[], s⟩ w
  | cons {s : WrittenStep} {t : Trail WrittenStep} {w v : List Char} :
      StepAs s w → StepsAs t v → StepsAs ⟨s :: t.parents, t.last⟩ (w ++ '/' :: v)

/-- What may follow a step: nothing, or a slash. -/
def EndsStep (rest : List Char) : Prop := ∀ c ∈ rest.head?, c = '/'

theorem readPredicates_append {ps : List Predicate} {w rest : List Char}
    (h : PredicatesAs ps w) (hrest : EndsStep rest) :
    readPredicates (w ++ rest) = .ok (ps, rest) := by
  induction h with
  | nil =>
      rw [List.nil_append, readPredicates, if_neg]
      intro hhead
      have := hrest '[' (by simp [hhead])
      cases this
  | @cons p ps w t hw _ ih =>
      have hread := readPredicate_append hw (t ++ rest)
      have hhead : (w ++ (t ++ rest)).head? = some '[' := by
        obtain ⟨_, _, _, _, rfl⟩ := hw
        rfl
      rw [List.append_assoc, readPredicates, if_pos hhead]
      split
      · rename_i heq
        rw [hread] at heq
        cases heq
      · rename_i heq
        rw [hread] at heq
        cases heq
        rw [ih]
        rfl

theorem predicates_of_readPredicates {cs rest : List Char} {ps : List Predicate}
    (h : readPredicates cs = .ok (ps, rest)) : ∃ w, PredicatesAs ps w ∧ cs = w ++ rest := by
  fun_induction readPredicates cs generalizing ps rest with
  | case1 => cases h
  | case2 cs _ p r hp ih =>
      obtain ⟨⟨m, r'⟩, hm, heq⟩ := map_eq_ok_iff.mp h
      cases heq
      obtain ⟨t, ht, hcs⟩ := ih hm
      obtain ⟨w, hw, hcs'⟩ := predicate_of_readPredicate hp
      exact ⟨w ++ t, .cons hw ht, by rw [hcs', hcs, List.append_assoc]⟩
  | case3 =>
      cases h
      exact ⟨[], .nil, rfl⟩

theorem predicates_notBefore {ps : List Predicate} {w rest : List Char}
    (h : PredicatesAs ps w) (hrest : EndsStep rest) : NotBefore continuesName (w ++ rest) := by
  cases h with
  | nil =>
      intro c hc
      rw [hrest c hc]
      decide
  | cons hw _ =>
      obtain ⟨_, _, _, _, rfl⟩ := hw
      exact notBefore_append (head?_append_of_head? rfl _) (by decide) rest

theorem readStep_append {s : WrittenStep} {w rest : List Char} (h : StepAs s w)
    (hrest : EndsStep rest) : readStep (w ++ rest) = .ok (s, rest) := by
  obtain ⟨t, hname, hps, rfl⟩ := h
  unfold readStep
  rw [List.append_assoc]
  refine bind_eq_ok_iff.mpr ⟨_, readName_append hname (predicates_notBefore hps hrest), ?_⟩
  exact bind_eq_ok_iff.mpr ⟨_, readPredicates_append hps hrest, rfl⟩

theorem step_of_readStep {cs rest : List Char} {s : WrittenStep}
    (h : readStep cs = .ok (s, rest)) : ∃ w, StepAs s w ∧ cs = w ++ rest := by
  unfold readStep at h
  obtain ⟨⟨n, c₁⟩, h₁, h⟩ := bind_eq_ok_iff.mp h
  obtain ⟨⟨ps, c₂⟩, h₂, h⟩ := bind_eq_ok_iff.mp h
  cases h
  obtain ⟨hname, hcs⟩ := name_of_readName h₁
  obtain ⟨t, ht, hcs'⟩ := predicates_of_readPredicates h₂
  exact ⟨_, ⟨t, hname, ht, rfl⟩, by rw [hcs, hcs', List.append_assoc]⟩

/-! ## Whole paths -/

/-- The lead of an ancestor axis. -/
def axisLead : List Char := "ancestor::".toList

theorem axisLead_ne_nil : axisLead ≠ [] := by decide

/-- No step starts like an axis: the name would end at the first colon, and
the second one is no slash. -/
theorem after?_axisLead_eq_none {s : WrittenStep} {w rest : List Char} (h : StepAs s w)
    (hrest : EndsStep rest) : after? axisLead (w ++ rest) = none := by
  cases hafter : after? axisLead (w ++ rest) with
  | none => rfl
  | some r =>
      have hread := readStep_append h hrest
      have hname : readName (axisLead ++ r) = .ok ("ancestor", ':' :: ':' :: r) := by rfl
      have hnil : readPredicates (':' :: ':' :: r) = .ok ([], ':' :: ':' :: r) := by
        rw [readPredicates, if_neg (by simp)]
      rw [after?_eq_some_iff.mp hafter] at hread
      unfold readStep at hread
      obtain ⟨⟨n, c₁⟩, h₁, hread⟩ := bind_eq_ok_iff.mp hread
      rw [hname] at h₁
      cases h₁
      obtain ⟨⟨ps, c₂⟩, h₂, hread⟩ := bind_eq_ok_iff.mp hread
      rw [hnil] at h₂
      cases h₂
      cases hread
      have := hrest ':' (by simp)
      cases this

/-- What may follow the steps, and the text of the axis found there: nothing,
or an axis if one is allowed. -/
inductive StepsEnd (allowAxis : Bool) : List Char → Option (List Char) → Prop where
  | here : StepsEnd allowAxis [] none
  | axis {target : List Char} : allowAxis = true →
      StepsEnd allowAxis ('/' :: (axisLead ++ target)) (some target)

theorem StepsEnd.endsStep {allowAxis : Bool} {rest : List Char} {axis : Option (List Char)}
    (h : StepsEnd allowAxis rest axis) : EndsStep rest := by
  cases h with
  | here => intro c hc; simp at hc
  | axis => intro c hc; simpa using hc.symm

theorem endsStep_slash (rest : List Char) : EndsStep ('/' :: rest) := by
  intro c hc
  simpa using hc.symm

/-- Steps are not taken for an axis. -/
theorem axisTarget?_append {allowAxis : Bool} {t : Trail WrittenStep} {w rest : List Char}
    (h : StepsAs t w) (hrest : EndsStep rest) : axisTarget? allowAxis (w ++ rest) = none := by
  unfold axisTarget?
  split
  · cases h with
    | last hs => exact after?_axisLead_eq_none hs hrest
    | cons hs _ =>
        rw [List.append_assoc, List.cons_append]
        exact after?_axisLead_eq_none hs (endsStep_slash _)
  · rfl

/-- Behind a step and a slash there is an axis or there are further steps. -/
theorem readSteps_slash {allowAxis : Bool} {s : WrittenStep} {w : List Char} (hs : StepAs s w)
    (more : List Char) :
    readSteps allowAxis (w ++ '/' :: more) =
      match axisTarget? allowAxis more with
      | some target => .ok (⟨[], s⟩, some target)
      | none =>
        (readSteps allowAxis more).map fun r => (⟨s :: r.1.parents, r.1.last⟩, r.2) := by
  have hread := readStep_append hs (endsStep_slash more)
  rw [readSteps]
  split
  · rename_i heq
    rw [hread] at heq
    cases heq
  · rename_i heq
    rw [hread] at heq
    cases heq
    simp only [List.isEmpty_cons, Bool.false_eq_true, if_false, after?]
    rfl

theorem readSteps_append {allowAxis : Bool} {t : Trail WrittenStep} {w rest : List Char}
    {axis : Option (List Char)} (h : StepsAs t w) (hrest : StepsEnd allowAxis rest axis) :
    readSteps allowAxis (w ++ rest) = .ok (t, axis) := by
  induction h with
  | @last s w hs =>
      have hends := hrest.endsStep
      cases hrest with
      | here =>
          have hread := readStep_append hs hends
          rw [readSteps]
          split
          · rename_i heq
            rw [hread] at heq
            cases heq
          · rename_i heq
            rw [hread] at heq
            cases heq
            rfl
      | @axis target hallow =>
          have htarget : axisTarget? allowAxis (axisLead ++ target) = some target := by
            rw [axisTarget?, if_pos hallow]
            exact after?_append axisLead target
          rw [readSteps_slash hs, htarget]
  | @cons s t w v hs ht ih =>
      rw [List.append_assoc, List.cons_append, readSteps_slash hs,
        axisTarget?_append ht hrest.endsStep, ih]
      rfl

theorem steps_of_readSteps {allowAxis : Bool} {cs : List Char} {t : Trail WrittenStep}
    {axis : Option (List Char)} (h : readSteps allowAxis cs = .ok (t, axis)) :
    ∃ w rest, StepsAs t w ∧ StepsEnd allowAxis rest axis ∧ cs = w ++ rest := by
  fun_induction readSteps allowAxis cs generalizing t axis with
  | case1 => cases h
  | case2 cs s rest hs hempty =>
      cases h
      obtain ⟨w, hw, hcs⟩ := step_of_readStep hs
      rw [List.isEmpty_iff.mp hempty] at hcs
      exact ⟨w, [], .last hw, .here, hcs⟩
  | case3 => cases h
  | case4 cs s rest hs _ more hmore target htarget =>
      cases h
      obtain ⟨w, hw, hcs⟩ := step_of_readStep hs
      unfold axisTarget? at htarget
      split at htarget
      · rename_i hallow
        refine ⟨w, '/' :: (axisLead ++ target), .last hw, .axis hallow, ?_⟩
        rw [hcs, after?_eq_some_iff.mp hmore, after?_eq_some_iff.mp htarget]
        rfl
      · cases htarget
  | case5 cs s rest hs _ more hmore _ ih =>
      obtain ⟨⟨t', axis'⟩, ht, heq⟩ := map_eq_ok_iff.mp h
      cases heq
      obtain ⟨w, hw, hcs⟩ := step_of_readStep hs
      obtain ⟨v, tail, hv, htail, hcs'⟩ := ih ht
      refine ⟨_, tail, .cons hw hv, htail, ?_⟩
      rw [hcs, after?_eq_some_iff.mp hmore, hcs']
      simp

/-- A path: its anchor, its steps, and the steps of its ancestor axis. -/
def ExpressionAs (e : Expression) (w : List Char) : Prop :=
  ∃ steps rest, StepsAs e.steps steps ∧ w = e.anchor.chars ++ (steps ++ rest)
    ∧ match e.ancestor with
      | none => rest = []
      | some t => ∃ target, StepsAs t target ∧ rest = '/' :: (axisLead ++ target)

theorem steps_head {t : Trail WrittenStep} {w : List Char} (h : StepsAs t w) :
    ∃ c, w.head? = some c ∧ isNameStart c = true := by
  have hstep : ∀ {s : WrittenStep} {w : List Char}, StepAs s w →
      ∃ c, w.head? = some c ∧ isNameStart c = true := by
    rintro s w ⟨t, hname, -, rfl⟩
    rcases hname with hid | ⟨a, b, ha, -, hab⟩
    · cases hn : s.name.toList with
      | nil => rw [hn] at hid; cases hid
      | cons c cs => rw [hn] at hid; exact ⟨c, rfl, hid.1⟩
    · cases a with
      | nil => cases ha
      | cons c cs => rw [hab]; exact ⟨c, rfl, ha.1⟩
  cases h with
  | last hs => exact hstep hs
  | cons hs _ =>
      obtain ⟨c, hc, hstart⟩ := hstep hs
      exact ⟨c, head?_append_of_head? hc _, hstart⟩

theorem readAnchor_append {anchor : Anchor} {w : List Char} {c : Char} (hw : w.head? = some c)
    (hc : isNameStart c = true) : readAnchor (anchor.chars ++ w) = .ok (anchor, w) := by
  cases anchor with
  | descendant => rfl
  | absolute =>
      cases w with
      | nil => cases hw
      | cons d w =>
          have hd : d = c := Option.some.inj hw
          subst hd
          show readAnchor ('/' :: d :: w) = _
          unfold readAnchor
          split
          · rename_i heq
            simp at heq
            rw [heq.1] at hc
            cases hc
          · rename_i heq
            simp at heq
            rw [← heq]
          · rename_i hne
            exact absurd rfl (hne (d :: w))

theorem anchor_of_readAnchor {cs rest : List Char} {anchor : Anchor}
    (h : readAnchor cs = .ok (anchor, rest)) : cs = anchor.chars ++ rest := by
  unfold readAnchor at h
  split at h <;> cases h <;> rfl

/-- A text is read as a path exactly if it spells it. -/
theorem read_eq_ok_iff {cs : List Char} {e : Expression} :
    Expression.read cs = .ok e ↔ ExpressionAs e cs := by
  unfold Expression.read
  constructor
  · intro h
    obtain ⟨⟨anchor, c₁⟩, h₁, h⟩ := bind_eq_ok_iff.mp h
    obtain ⟨⟨main, axis⟩, h₂, h⟩ := bind_eq_ok_iff.mp h
    obtain ⟨w, rest, hw, hrest, hcs⟩ := steps_of_readSteps h₂
    rw [anchor_of_readAnchor h₁, hcs]
    cases hrest with
    | here =>
        cases h
        exact ⟨w, [], hw, rfl, rfl⟩
    | @axis target _ =>
        obtain ⟨⟨ancestor, none'⟩, h₃, h⟩ := bind_eq_ok_iff.mp h
        cases h
        obtain ⟨v, rest', hv, hrest', htarget⟩ := steps_of_readSteps h₃
        cases hrest' with
        | here => exact ⟨w, _, hw, rfl, v, hv, by rw [htarget, List.append_nil]⟩
        | axis hallow => cases hallow
  · rintro ⟨w, rest, hw, rfl, haxis⟩
    obtain ⟨c, hc, hstart⟩ := steps_head hw
    refine bind_eq_ok_iff.mpr
      ⟨_, readAnchor_append (head?_append_of_head? hc rest) hstart, ?_⟩
    obtain ⟨anchor, steps, ancestor⟩ := e
    cases ancestor with
    | none =>
        have haxis : rest = [] := haxis
        subst haxis
        exact bind_eq_ok_iff.mpr ⟨_, readSteps_append hw .here, rfl⟩
    | some t =>
        obtain ⟨target, htarget, rfl⟩ := haxis
        refine bind_eq_ok_iff.mpr ⟨_, readSteps_append hw (.axis rfl), ?_⟩
        have hread : readSteps false (target ++ []) = .ok (t, none) :=
          readSteps_append htarget .here
        rw [List.append_nil] at hread
        exact bind_eq_ok_iff.mpr ⟨_, hread, rfl⟩

end DataTree.Path
