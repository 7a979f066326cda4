/-!
# Runs that may fail

A fold whose steps may fail stops at the first error. What such a fold leaves is described by the
part of the list that was done (`foldlM_outcome`), and where it stops by the step that failed
(`foldlM_eq_error`). Of a list that is mapped this way, each result comes from one of its elements.
-/

namespace Privatization

/-- What is made of a result comes from a result. -/
theorem map_eq_ok {ε α β : Type} {f : α → β} {x : Except ε α} {b : β} (h : x.map f = .ok b) :
    ∃ a, x = .ok a ∧ f a = b := by
  cases x with
  | error e => cases h
  | ok a => exact ⟨a, rfl, Except.ok.inj h⟩

/-- A chain that succeeds does so in both parts. -/
theorem bind_eq_ok {ε α β : Type} {x : Except ε α} {f : α → Except ε β} {b : β}
    (h : x >>= f = .ok b) : ∃ a, x = .ok a ∧ f a = .ok b := by
  cases x with
  | error e => cases h
  | ok a => exact ⟨a, rfl, h⟩

variable {α β γ ε : Type} {f g : β → α → Except ε β} {as : List α} {b b' : β}

/-- A fold over lists joined is a fold of folds. -/
theorem foldlM_flatMap (g : α → List γ) (f : β → γ → Except ε β) (as : List α)
    (b : β) : (as.flatMap g).foldlM f b = as.foldlM (fun b a => (g a).foldlM f b) b := by
  induction as generalizing b with
  | nil => rfl
  | cons a as ih =>
    rw [List.flatMap_cons, List.foldlM_append, List.foldlM_cons]
    exact bind_congr fun b' => ih b'

/-- A fold depends on the steps for the elements of the list. -/
theorem foldlM_congr (h : ∀ b, ∀ a ∈ as, f b a = g b a) (b : β) : as.foldlM f b = as.foldlM g b := by
  induction as generalizing b with
  | nil => rfl
  | cons a as ih =>
    rw [List.foldlM_cons, List.foldlM_cons, h b a List.mem_cons_self]
    exact bind_congr fun b' => ih (fun b x hx => h b x (List.mem_cons_of_mem a hx)) b'

/-- What a fold that reaches the end leaves, by what each step adds to what was left so far. -/
theorem foldlM_outcome {P : List α → β → Prop} {done : List α} (h : P done b)
    (hstep : ∀ done a b b', P done b → f b a = .ok b' → P (done ++ [a]) b')
    (hok : as.foldlM f b = .ok b') : P (done ++ as) b' := by
  -- Along what is left; the elements done so far are kept in front.
  induction as generalizing b done with
  | nil =>
    cases hok
    rw [List.append_nil]
    exact h
  | cons a as ih =>
    rw [List.foldlM_cons] at hok
    obtain ⟨b₁, hb₁, hok⟩ := bind_eq_ok hok
    rw [List.append_cons]
    exact ih (hstep done a b b₁ h hb₁) hok

/-- What every step keeps is kept by a fold that reaches the end. -/
theorem foldlM_invariant {P : β → Prop} (h : P b)
    (hstep : ∀ a b b', P b → f b a = .ok b' → P b') (hok : as.foldlM f b = .ok b') : P b' :=
  @foldlM_outcome α β ε f as b b' (fun _ => P) [] h (fun _ => hstep) hok

/-- A fold fails with the error of its first step that does. -/
theorem foldlM_eq_error {e : ε} (h : as.foldlM f b = .error e) :
    ∃ before a after b', as = before ++ a :: after ∧ before.foldlM f b = .ok b'
      ∧ f b' a = .error e := by
  induction as generalizing b with
  | nil => cases h
  | cons a as ih =>
    rw [List.foldlM_cons] at h
    cases ha : f b a with
    | error e' =>
      rw [ha] at h
      cases h
      exact ⟨[], a, as, b, rfl, rfl, ha⟩
    | ok b₁ =>
      rw [ha] at h
      obtain ⟨before, x, after, b', rfl, hbefore, hx⟩ := ih h
      refine ⟨a :: before, x, after, b', rfl, ?_, hx⟩
      rw [List.foldlM_cons, ha]
      exact hbefore

theorem exists_of_mem_mapM {f : α → Except ε γ} {cs : List γ} {c : γ} (h : as.mapM f = .ok cs)
    (hc : c ∈ cs) : ∃ a ∈ as, f a = .ok c := by
  induction as generalizing cs with
  | nil =>
    cases h
    cases hc
  | cons a as ih =>
    rw [List.mapM_cons] at h
    obtain ⟨c₁, hc₁, h⟩ := bind_eq_ok h
    obtain ⟨cs₁, hcs₁, h⟩ := bind_eq_ok h
    cases h
    rcases List.mem_cons.mp hc with rfl | hc
    · exact ⟨a, List.mem_cons_self, hc₁⟩
    · obtain ⟨a', ha', hfa'⟩ := ih hcs₁ hc
      exact ⟨a', List.mem_cons_of_mem a ha', hfa'⟩

/-- What is read of each written element is the element, and so of the list. -/
theorem mapM_map_eq_ok {f : α → Except ε γ} {g : γ → α} {cs : List γ} (h : ∀ c ∈ cs, f (g c) = .ok c) :
    (cs.map g).mapM f = .ok cs := by
  induction cs with
  | nil => rfl
  | cons c cs ih =>
    obtain ⟨hc, hcs⟩ := List.forall_mem_cons.mp h
    rw [List.map_cons, List.mapM_cons, hc, ih hcs]
    rfl

/-- If all of a list succeed, these are their results. -/
theorem eq_map_ok_of_mapM {xs : List (Except ε γ)} {cs : List γ} (h : xs.mapM id = .ok cs) :
    xs = cs.map .ok := by
  induction xs generalizing cs with
  | nil =>
    cases h
    rfl
  | cons x xs ih =>
    rw [List.mapM_cons] at h
    obtain ⟨c, hx, h⟩ := bind_eq_ok h
    obtain ⟨cs, hcs, h⟩ := bind_eq_ok h
    cases h
    rw [List.map_cons, ← ih hcs, ← hx]
    rfl

end Privatization
