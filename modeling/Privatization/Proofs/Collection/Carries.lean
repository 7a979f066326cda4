import Privatization.Proofs.Collection.Folds

/-!
# Runs side by side

Two runs that may fail, where the second gets through whatever the first gets through, and the
results stay related. Each rule is about one way to put such runs together.
-/

namespace Privatization

variable {α α' β β' ε : Type} {R : α → α' → Prop} {Q : β → β' → Prop}

/-- Where the first run succeeds, the second does, with a result that is related to it. -/
def Carries (R : α → α' → Prop) (x : Except ε α) (y : Except ε α') : Prop :=
  ∀ a, x = .ok a → ∃ b, y = .ok b ∧ R a b

namespace Carries

/-- Results that are related. -/
theorem ok {a : α} {b : α'} (h : R a b) : Carries R (.ok a : Except ε α) (.ok b) := by
  rintro _ ⟨⟩
  exact ⟨b, rfl, h⟩

/-- A run that fails asks nothing of the other. -/
theorem error {e : ε} {y : Except ε α'} : Carries R (.error e) y := fun _ h => by cases h

/-- Both runs go on from related results. -/
theorem bind {x : Except ε α} {y : Except ε α'} {f : α → Except ε β} {g : α' → Except ε β'}
    (h : Carries R x y) (hnext : ∀ a b, R a b → Carries Q (f a) (g b)) :
    Carries Q (x >>= f) (y >>= g) := by
  intro c hc
  obtain ⟨a, ha, hfa⟩ := bind_eq_ok hc
  obtain ⟨b, rfl, hab⟩ := h a ha
  exact hnext a b hab c hfa

/-- Both runs begin with the same part. -/
theorem after (x : Except ε α) {f : α → Except ε β} {g : α → Except ε β'}
    (hnext : ∀ a, x = .ok a → Carries Q (f a) (g a)) : Carries Q (x >>= f) (x >>= g) := by
  intro c hc
  obtain ⟨a, rfl, hfa⟩ := bind_eq_ok hc
  exact hnext a rfl c hfa

/-- What the first run does not refuse, the second does not refuse. -/
theorem guard {c c' : Prop} [Decidable c] [Decidable c'] {x x' : Except ε α} {y y' : Except ε α'}
    (hc : c → Carries R x (if c' then y else y')) (hnot : ¬ c → ¬ c' ∧ Carries R x' y') :
    Carries R (if c then x else x') (if c' then y else y') := by
  by_cases h : c
  · rw [if_pos h]
    exact hc h
  · obtain ⟨h', hcarries⟩ := hnot h
    rw [if_neg h, if_neg h']
    exact hcarries

/-- The second run begins with the image of what the first begins with. -/
theorem image (x : Except ε α) (g : α → α') {f : α → Except ε β} {f' : α' → Except ε β'}
    (hnext : ∀ a, x = .ok a → Carries Q (f a) (f' (g a))) : Carries Q (x >>= f) (x.map g >>= f') := by
  intro c hc
  obtain ⟨a, rfl, hfa⟩ := bind_eq_ok hc
  exact hnext a rfl c hfa

/-- Both runs begin with parts that have the same result. -/
theorem along {x y : Except ε α} {f : α → Except ε β} {g : α → Except ε β'} (h : Carries Eq x y)
    (hnext : ∀ a, Carries Q (f a) (g a)) : Carries Q (x >>= f) (y >>= g) :=
  h.bind fun a _ hab => hab ▸ hnext a

/-- Equal results have equal images. -/
theorem map {x y : Except ε α} (h : Carries Eq x y) (f : α → β) :
    Carries Eq (x.map f) (y.map f) := by
  intro c hc
  obtain ⟨a, ha, rfl⟩ := map_eq_ok hc
  obtain ⟨_, rfl, rfl⟩ := h a ha
  exact ⟨f a, rfl, rfl⟩

/-- Errors may be reported differently, since only results are compared. -/
theorem mapError {ε' : Type} {x : Except ε α} {y : Except ε α'} {f g : ε → ε'}
    (h : Carries R x y) : Carries R (x.mapError f) (y.mapError g) := by
  cases x with
  | error e => exact error
  | ok a =>
    obtain ⟨b, rfl, hab⟩ := h a rfl
    exact ok hab

/-- A list and its image are mapped side by side. -/
theorem mapM_map {p : α → Except ε β} {q : α' → Except ε β} {g : α → α'}
    (h : ∀ a, Carries Eq (p a) (q (g a))) (as : List α) :
    Carries Eq (as.mapM p) ((as.map g).mapM q) := by
  induction as with
  | nil => exact ok rfl
  | cons a as ih =>
    rw [List.map_cons, List.mapM_cons, List.mapM_cons]
    refine (h a).bind fun b _ hb => ih.bind fun bs _ hbs => ?_
    subst hb hbs
    exact ok rfl

end Carries

end Privatization
