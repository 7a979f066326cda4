import Privatization.Collection.StrictOrder

/-!
# Sets kept in ascending order

A `SortedSet α` is a strictly ascending list. Two sets with the same members are equal
(`SortedSet.ext`), whatever order they were filled in.
-/

namespace Privatization

/-- A set of `α`, listed in ascending order without repetition. -/
structure SortedSet (α : Type) [StrictOrder α] where
  toList : List α
  ascending : toList.Pairwise (fun a b => StrictOrder.lt a b = true)

namespace SortedSet

variable {α : Type} [StrictOrder α]

/-- The set without members. -/
def empty : SortedSet α := ⟨[], .nil⟩

instance : EmptyCollection (SortedSet α) := ⟨empty⟩

instance : Inhabited (SortedSet α) := ⟨empty⟩

instance : Membership α (SortedSet α) where
  mem s a := a ∈ s.toList

instance [DecidableEq α] (a : α) (s : SortedSet α) : Decidable (a ∈ s) :=
  inferInstanceAs (Decidable (a ∈ s.toList))

instance [DecidableEq α] : DecidableEq (SortedSet α) := fun s t =>
  decidable_of_iff (s.toList = t.toList) ⟨fun h => by cases s; cases t; simp_all, fun h => h ▸ rfl⟩

/-- Places `a` into an ascending list. -/
def place (a : α) : List α → List α
  | [] => [a]
  | b :: bs =>
    if StrictOrder.lt a b then a :: b :: bs
    else if StrictOrder.lt b a then b :: place a bs
    else b :: bs

/-- Placing a member in a list adds that member and no other. -/
theorem mem_place {a x : α} {l : List α} : x ∈ place a l ↔ x = a ∨ x ∈ l := by
  induction l with
  | nil => simp [place]
  | cons b bs ih =>
    unfold place
    split
    · simp
    · split
      · simp only [List.mem_cons, ih]; grind
      · next h₁ h₂ =>
        have hab : a = b := StrictOrder.eq_of_not_lt (by simpa using h₁) (by simpa using h₂)
        subst hab; simp

/-- An ascending list stays ascending. -/
theorem place_ascending {a : α} {l : List α}
    (h : l.Pairwise (fun a b => StrictOrder.lt a b = true)) :
    (place a l).Pairwise (fun a b => StrictOrder.lt a b = true) := by
  induction l with
  | nil => simp [place]
  | cons b bs ih =>
    have ⟨hb, hbs⟩ := List.pairwise_cons.mp h
    unfold place
    split
    · next hab =>
      refine List.pairwise_cons.mpr ⟨fun x hx => ?_, h⟩
      rcases List.mem_cons.mp hx with rfl | hx
      · exact hab
      · exact StrictOrder.trans hab (hb x hx)
    · split
      · next hba =>
        refine List.pairwise_cons.mpr ⟨fun x hx => ?_, ih hbs⟩
        rcases mem_place.mp hx with rfl | hx
        · exact hba
        · exact hb x hx
      · exact h

/-- Adds `a`. -/
def insert (s : SortedSet α) (a : α) : SortedSet α :=
  ⟨place a s.toList, place_ascending s.ascending⟩

/-- Adds every member of `t`. -/
def union (s t : SortedSet α) : SortedSet α := t.toList.foldl insert s

instance : Union (SortedSet α) := ⟨union⟩

/-- The set of the members of a list. -/
def ofList (as : List α) : SortedSet α := as.foldl insert ∅

/-- Whether every member of `s` is a member of `t`. -/
def subset [DecidableEq α] (s t : SortedSet α) : Bool := s.toList.all (· ∈ t)

@[simp] theorem not_mem_empty (x : α) : x ∉ (∅ : SortedSet α) := List.not_mem_nil

@[simp] theorem mem_insert {s : SortedSet α} {a x : α} : x ∈ s.insert a ↔ x = a ∨ x ∈ s :=
  mem_place

/-- Inserting a list adds its members. -/
theorem mem_foldl_insert {as : List α} {s : SortedSet α} {x : α} :
    x ∈ as.foldl insert s ↔ x ∈ as ∨ x ∈ s := by
  induction as generalizing s with
  | nil => simp
  | cons a as ih => simp only [List.foldl_cons, ih, mem_insert, List.mem_cons]; grind

@[simp] theorem mem_union {s t : SortedSet α} {x : α} : x ∈ s ∪ t ↔ x ∈ s ∨ x ∈ t := by
  rw [Or.comm]; exact mem_foldl_insert

@[simp] theorem mem_ofList {as : List α} {x : α} : x ∈ ofList as ↔ x ∈ as := by
  simp [ofList, mem_foldl_insert]

/-- Two sets with the same members are equal. -/
theorem ext {s t : SortedSet α} (h : ∀ x, x ∈ s ↔ x ∈ t) : s = t := by
  obtain ⟨l, hl⟩ := s
  obtain ⟨m, hm⟩ := t
  replace h : ∀ x, x ∈ l ↔ x ∈ m := h
  congr 1
  induction l generalizing m with
  | nil => exact (List.eq_nil_iff_forall_not_mem.mpr fun x hx => by simpa using (h x).mpr hx).symm
  | cons a l ih =>
    cases m with
    | nil => exact absurd ((h a).mp List.mem_cons_self) List.not_mem_nil
    | cons b m =>
      have ⟨ha, hl'⟩ := List.pairwise_cons.mp hl
      have ⟨hb, hm'⟩ := List.pairwise_cons.mp hm
      have hab : a = b := by
        rcases List.mem_cons.mp ((h a).mp List.mem_cons_self) with e | hbm
        · exact e
        · rcases List.mem_cons.mp ((h b).mpr List.mem_cons_self) with e | hal
          · exact e.symm
          · have := StrictOrder.trans (ha b hal) (hb a hbm)
            simp [StrictOrder.irrefl] at this
      subst hab
      congr 1
      refine ih hl' m hm' fun x => ?_
      have hx := h x
      simp only [List.mem_cons] at hx
      constructor
      · intro hxl
        rcases hx.mp (.inr hxl) with rfl | h'
        · have := ha x hxl; simp [StrictOrder.irrefl] at this
        · exact h'
      · intro hxm
        rcases hx.mpr (.inr hxm) with rfl | h'
        · have := hb x hxm; simp [StrictOrder.irrefl] at this
        · exact h'

end SortedSet

end Privatization
