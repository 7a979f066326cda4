/-!
# Strict orders

Total orders given by a test for "comes before". Lists are ordered by the first items in which they
differ, a list before those that go on behind it; texts are ordered as lists of characters, and
characters by their code.
-/

namespace Privatization

/-- A strict total order given by a test. -/
class StrictOrder (α : Type) where
  lt : α → α → Bool
  irrefl : ∀ a, lt a a = false
  trans : ∀ {a b c}, lt a b = true → lt b c = true → lt a c = true
  eq_of_not_lt : ∀ {a b}, lt a b = false → lt b a = false → a = b

namespace StrictOrder

/-- The order of items by their numbers. -/
@[reducible] def ofNumber {α : Type} (number : α → Nat)
    (injective : ∀ a b, number a = number b → a = b) : StrictOrder α where
  lt a b := number a < number b
  irrefl _ := decide_eq_false (Nat.lt_irrefl _)
  trans h₁ h₂ := decide_eq_true (Nat.lt_trans (of_decide_eq_true h₁) (of_decide_eq_true h₂))
  eq_of_not_lt h₁ h₂ :=
    injective _ _ (Nat.le_antisymm (Nat.not_lt.mp (of_decide_eq_false h₂))
      (Nat.not_lt.mp (of_decide_eq_false h₁)))

instance : StrictOrder Char := ofNumber Char.toNat fun _ _ h => Char.ext (UInt32.toNat_inj.mp h)

section Lists

variable {α : Type} [StrictOrder α]

/-- Whether a list comes before another. -/
def listLt : List α → List α → Bool
  | _, [] => false
  | [], _ :: _ => true
  | a :: as, b :: bs => lt a b || (!lt b a && listLt as bs)

theorem listLt_irrefl (as : List α) : listLt as as = false := by
  induction as with
  | nil => rfl
  | cons a as ih => simp [listLt, irrefl, ih]

/-- Lists neither of which comes first are the same. -/
theorem eq_of_not_listLt {as bs : List α} (h₁ : listLt as bs = false)
    (h₂ : listLt bs as = false) : as = bs := by
  induction as generalizing bs with
  | nil => cases bs <;> simp_all [listLt]
  | cons a as ih =>
    cases bs with
    | nil => simp [listLt] at h₂
    | cons b bs =>
      simp only [listLt, Bool.or_eq_false_iff] at h₁ h₂
      have hab : a = b := eq_of_not_lt h₁.1 h₂.1
      have hs : as = bs := ih (by simpa [h₂.1] using h₁.2) (by simpa [h₁.1] using h₂.2)
      rw [hab, hs]

/-- The order of lists is that of a dictionary, and so transitive. -/
theorem listLt_trans {as bs cs : List α} (h₁ : listLt as bs = true)
    (h₂ : listLt bs cs = true) : listLt as cs = true := by
  induction as generalizing bs cs with
  | nil => cases bs <;> cases cs <;> simp_all [listLt]
  | cons a as ih =>
    cases bs with
    | nil => simp [listLt] at h₁
    | cons b bs =>
      cases cs with
      | nil => simp [listLt] at h₂
      | cons c cs =>
        simp only [listLt, Bool.or_eq_true, Bool.and_eq_true, Bool.not_eq_true'] at *
        have eq {x y : α} (h : lt x y = false) (h' : lt y x = false) : x = y := eq_of_not_lt h h'
        cases hab : lt a b with
        | true =>
          cases hbc : lt b c with
          | true => exact .inl (trans hab hbc)
          | false => exact .inl (eq hbc (h₂.resolve_left (by simp [hbc])).1 ▸ hab)
        | false =>
          obtain ⟨hba, has⟩ := h₁.resolve_left (by simp [hab])
          obtain rfl := eq hab hba
          exact h₂.imp_right fun ⟨hca, hbs⟩ => ⟨hca, ih has hbs⟩

instance : StrictOrder (List α) where
  lt := listLt
  irrefl := listLt_irrefl
  trans := listLt_trans
  eq_of_not_lt := eq_of_not_listLt

end Lists

instance : StrictOrder String where
  lt a b := lt a.toList b.toList
  irrefl a := irrefl a.toList
  trans h₁ h₂ := trans h₁ h₂
  eq_of_not_lt h₁ h₂ := String.ext (eq_of_not_lt h₁ h₂)

end StrictOrder

end Privatization
