/-!
# Chained computations that may fail

A chain of computations succeeds exactly if each of them does.  These are
the equations by which the proofs take a successful reader, plan or lookup
apart into its parts.  What holds of all errors of the parts holds of those of
the chain.

## Main definitions

* `FailsWith` — what holds of all errors of a computation.
-/

namespace DataTree

variable {ε ε' α β : Type}

theorem bind_eq_ok_iff {x : Except ε α} {f : α → Except ε β} {b : β} :
    x >>= f = .ok b ↔ ∃ a, x = .ok a ∧ f a = .ok b := by
  cases x with
  | error e =>
      constructor
      · intro h
        cases h
      · rintro ⟨a, h, -⟩
        cases h
  | ok a =>
      constructor
      · intro h
        exact ⟨a, rfl, h⟩
      · rintro ⟨a', h, hf⟩
        cases h
        exact hf

theorem map_eq_ok_iff {x : Except ε α} {f : α → β} {b : β} :
    x.map f = .ok b ↔ ∃ a, x = .ok a ∧ f a = b := by
  cases x with
  | error e => simp [Except.map]
  | ok a => simp [Except.map]

theorem mapError_eq_ok_iff {x : Except ε α} {f : ε → ε'} {a : α} :
    x.mapError f = .ok a ↔ x = .ok a := by
  cases x with
  | error e => constructor <;> intro h <;> cases h
  | ok a => constructor <;> intro h <;> cases h <;> rfl

theorem toOption_eq_some_iff {x : Except ε α} {a : α} : x.toOption = some a ↔ x = .ok a := by
  cases x with
  | error e => simp [Except.toOption]
  | ok a => simp [Except.toOption]

/-- What is shown of the result of a computation that succeeds. -/
theorem eq_of_toOption_map {x : Except ε α} {f : α → β} {a : α} {b : β} (h : x = .ok a)
    (hshown : x.toOption.map f = some b) : f a = b := by
  rw [h] at hshown
  exact Option.some.inj hshown

theorem bind_pure_eq_map (x : Except ε α) (f : α → β) :
    (x >>= fun a => pure (f a)) = x.map f := by
  cases x <;> rfl

theorem mapM_eq_ok {f : α → Except ε β} {g : α → β} {l : List α} (h : ∀ a ∈ l, f a = .ok (g a)) :
    l.mapM f = .ok (l.map g) := by
  induction l with
  | nil => rfl
  | cons a rest ih =>
      rw [List.mapM_cons, h a List.mem_cons_self, ih fun b hb => h b (List.mem_cons_of_mem _ hb)]
      rfl

theorem exists_of_mapM_eq_ok {f : α → Except ε β} {l : List α} {bs : List β}
    (h : l.mapM f = .ok bs) {b : β} (hb : b ∈ bs) : ∃ a ∈ l, f a = .ok b := by
  induction l generalizing bs with
  | nil =>
      cases h
      cases hb
  | cons a rest ih =>
      rw [List.mapM_cons] at h
      obtain ⟨c, hc, h⟩ := bind_eq_ok_iff.mp h
      obtain ⟨cs, hcs, h⟩ := bind_eq_ok_iff.mp h
      cases h
      rcases List.mem_cons.mp hb with rfl | hb
      · exact ⟨a, List.mem_cons_self, hc⟩
      · obtain ⟨x, hx, hfx⟩ := ih hcs hb
        exact ⟨x, List.mem_cons_of_mem a hx, hfx⟩

theorem exists_of_mem_of_mapM {f : α → Except ε β} {l : List α} {bs : List β}
    (h : l.mapM f = .ok bs) {a : α} (ha : a ∈ l) : ∃ b ∈ bs, f a = .ok b := by
  induction l generalizing bs with
  | nil => cases ha
  | cons c rest ih =>
      rw [List.mapM_cons] at h
      obtain ⟨b, hb, h⟩ := bind_eq_ok_iff.mp h
      obtain ⟨more, hmore, h⟩ := bind_eq_ok_iff.mp h
      cases h
      rcases List.mem_cons.mp ha with rfl | ha
      · exact ⟨b, List.mem_cons_self, hb⟩
      · obtain ⟨x, hx, hfx⟩ := ih hmore ha
        exact ⟨x, List.mem_cons_of_mem b hx, hfx⟩

theorem mem_of_mapM_eq_ok {f : α → Except ε β} {l : List α} {bs : List β}
    (h : l.mapM f = .ok bs) {a : α} (ha : a ∈ l) {b : β} (hb : f a = .ok b) : b ∈ bs := by
  obtain ⟨c, hc, heq⟩ := exists_of_mem_of_mapM h ha
  cases hb.symm.trans heq
  exact hc

theorem exists_mapM_eq_ok {f : α → Except ε β} {l : List α} (h : ∀ a ∈ l, ∃ b, f a = .ok b) :
    ∃ bs, l.mapM f = .ok bs := by
  induction l with
  | nil => exact ⟨[], rfl⟩
  | cons a rest ih =>
      obtain ⟨b, hb⟩ := h a List.mem_cons_self
      obtain ⟨bs, hbs⟩ := ih fun c hc => h c (List.mem_cons_of_mem a hc)
      exact ⟨b :: bs, by rw [List.mapM_cons, hb, hbs]; rfl⟩

theorem mapM_congr {f g : α → Except ε β} {l : List α} (h : ∀ a ∈ l, f a = g a) :
    l.mapM f = l.mapM g := by
  induction l with
  | nil => rfl
  | cons a rest ih =>
      rw [List.mapM_cons, List.mapM_cons, h a List.mem_cons_self,
        ih fun b hb => h b (List.mem_cons_of_mem _ hb)]

/-- Computations on some members of a list that give part of what others give
for all of them. -/
theorem map_mapM {γ : Type} (f : α → Except ε β) (k : β → γ) (l : List α) :
    (l.mapM f).map (List.map k) = l.mapM fun a => (f a).map k := by
  induction l with
  | nil => rfl
  | cons a rest ih =>
      rw [List.mapM_cons, List.mapM_cons, ← ih]
      cases f a with
      | error e => rfl
      | ok b => cases rest.mapM f <;> rfl

theorem mapM_filter_map {γ : Type} {f : α → Except ε β} {g : α → Except ε γ} {k : β → γ}
    {p : α → Bool} {q : β → Bool} {l : List α} {bs : List β} (h : l.mapM f = .ok bs)
    (hk : ∀ a ∈ l, ∀ b, f a = .ok b → q b = p a ∧ g a = .ok (k b)) :
    (l.filter p).mapM g = .ok ((bs.filter q).map k) := by
  induction l generalizing bs with
  | nil =>
      cases h
      rfl
  | cons a rest ih =>
      rw [List.mapM_cons] at h
      obtain ⟨b, hb, h⟩ := bind_eq_ok_iff.mp h
      obtain ⟨more, hmore, h⟩ := bind_eq_ok_iff.mp h
      cases h
      have hrest := ih hmore fun c hc => hk c (List.mem_cons_of_mem a hc)
      obtain ⟨hpick, hgive⟩ := hk a List.mem_cons_self b hb
      cases hp : p a with
      | false =>
          rw [List.filter_cons_of_neg (by simp [hp]), List.filter_cons_of_neg (by simp [hpick, hp])]
          exact hrest
      | true =>
          rw [List.filter_cons_of_pos hp, List.filter_cons_of_pos (hpick.trans hp), List.mapM_cons,
            hgive, hrest]
          rfl

theorem mapM_eq_ok_map {γ : Type} {f : α → Except ε β} {g : α → Except ε γ} {k : β → γ}
    {l : List α} {bs : List β} (h : l.mapM f = .ok bs)
    (hk : ∀ a ∈ l, ∀ b, f a = .ok b → g a = .ok (k b)) : l.mapM g = .ok (bs.map k) := by
  have hall := mapM_filter_map (p := fun _ => true) (q := fun _ => true) h
    fun a ha b hb => ⟨rfl, hk a ha b hb⟩
  rwa [List.filter_eq_self.mpr fun _ _ => rfl, List.filter_eq_self.mpr fun _ _ => rfl] at hall

/-! ## Errors -/

/-- Whether a computation fails with errors of a kind only. -/
def FailsWith (P : ε → Prop) (x : Except ε α) : Prop := ∀ e, x = .error e → P e

namespace FailsWith

variable {P : ε → Prop}

theorem ok (a : α) : FailsWith P (.ok a) := by
  intro e h
  cases h

theorem error {e : ε} (h : P e) : FailsWith P (.error e : Except ε α) := by
  intro e' h'
  cases h'
  exact h

theorem bind {x : Except ε α} {f : α → Except ε β} (hx : FailsWith P x)
    (hf : ∀ a, FailsWith P (f a)) : FailsWith P (x >>= f) := by
  cases x with
  | error e => exact error (hx e rfl)
  | ok a => exact hf a

theorem mono {Q : ε → Prop} {x : Except ε α} (hx : FailsWith P x) (h : ∀ e, P e → Q e) :
    FailsWith Q x :=
  fun e he => h e (hx e he)

/-- A part that gives a result is of no concern. -/
theorem bind_of_eq {x : Except ε α} {a : α} {f : α → Except ε β} (hx : x = .ok a)
    (hf : FailsWith P (f a)) : FailsWith P (x >>= f) := by
  rw [hx]
  exact hf

theorem map {x : Except ε α} (hx : FailsWith P x) (f : α → β) : FailsWith P (x.map f) := by
  cases x with
  | error e => exact error (hx e rfl)
  | ok a => exact ok _

theorem mapError {f : ε' → ε} (hf : ∀ e, P (f e)) (x : Except ε' α) :
    FailsWith P (x.mapError f) := by
  cases x with
  | error e => exact error (hf e)
  | ok a => exact ok a

theorem mapM {f : α → Except ε β} (hf : ∀ a, FailsWith P (f a)) (l : List α) :
    FailsWith P (l.mapM f) := by
  induction l with
  | nil => exact ok _
  | cons a rest ih =>
      rw [List.mapM_cons]
      exact (hf a).bind fun b => ih.bind fun bs => ok _

end FailsWith

end DataTree
