/-!
# Finite sets of an enumeration

A `FlagSet α` is a set of constructors of a small enumeration, kept as one bit per constructor.
Every operation is described through membership, and two sets with the same members are equal
(`FlagSet.ext`).
-/

namespace Privatization

/-- An enumeration whose constructors are numbered from zero in the order they are reported. -/
class Enumeration (α : Type) where
  /-- Number of constructors. -/
  card : Nat
  /-- Every constructor, in order. -/
  all : List α
  /-- Position of a constructor. -/
  index : α → Nat
  index_lt : ∀ a, index a < card
  index_inj : ∀ a b, index a = index b → a = b
  index_surj : ∀ i, i < card → ∃ a, index a = i
  mem_all : ∀ a, a ∈ all

/-- A set of constructors of `α`, one bit each. -/
structure FlagSet (α : Type) [Enumeration α] where
  bits : BitVec (Enumeration.card α)

namespace FlagSet

variable {α : Type} [Enumeration α]

instance : DecidableEq (FlagSet α) := fun s t =>
  decidable_of_iff (s.bits = t.bits) ⟨fun h => by cases s; cases t; simp_all, fun h => h ▸ rfl⟩

/-- Whether the set holds `a`. -/
def has (s : FlagSet α) (a : α) : Bool :=
  s.bits.getLsbD (Enumeration.index a)

instance : Membership α (FlagSet α) where
  mem s a := s.has a = true

instance (a : α) (s : FlagSet α) : Decidable (a ∈ s) :=
  inferInstanceAs (Decidable (s.has a = true))

instance : EmptyCollection (FlagSet α) where
  emptyCollection := ⟨0#_⟩

instance : Singleton α (FlagSet α) where
  singleton a := ⟨BitVec.twoPow _ (Enumeration.index a)⟩

instance : Union (FlagSet α) where
  union s t := ⟨s.bits ||| t.bits⟩

instance : Inter (FlagSet α) where
  inter s t := ⟨s.bits &&& t.bits⟩

instance : SDiff (FlagSet α) where
  sdiff s t := ⟨s.bits &&& ~~~t.bits⟩

instance : Insert α (FlagSet α) where
  insert a s := {a} ∪ s

/-- Every constructor. -/
def univ : FlagSet α := ⟨BitVec.allOnes _⟩

/-- Whether every member of `t` is a member of `s`. -/
def includes (s t : FlagSet α) : Bool := s ∩ t == t

/-- Whether `s` and `t` share a member. -/
def meets (s t : FlagSet α) : Bool := s ∩ t != ∅

/-- Whether the set has no member. -/
def isEmpty (s : FlagSet α) : Bool := s == ∅

/-- The set of the members of a list. -/
def ofList (as : List α) : FlagSet α := as.foldl (fun s a => s ∪ {a}) ∅

/-- The members in the order of the enumeration. -/
def toList (s : FlagSet α) : List α := (Enumeration.all (α := α)).filter s.has

/-- The set as a number: bit `i` stands for the constructor at position `i`. -/
def toNat (s : FlagSet α) : Nat := s.bits.toNat

/-! ### Membership -/

theorem mem_def {a : α} {s : FlagSet α} : a ∈ s ↔ s.has a = true := Iff.rfl

@[simp] theorem has_empty (a : α) : (∅ : FlagSet α).has a = false :=
  BitVec.getLsbD_zero

@[simp] theorem has_univ (a : α) : (univ : FlagSet α).has a = true := by
  simp [has, univ, Enumeration.index_lt a]

/-- A flag is in a set of one flag if it has the number of that flag. -/
@[simp] theorem has_singleton (a b : α) :
    ({a} : FlagSet α).has b = decide (Enumeration.index a = Enumeration.index b) := by
  have h := Enumeration.index_lt a
  simp [has, Singleton.singleton, BitVec.getLsbD_twoPow, h]

@[simp] theorem has_union (s t : FlagSet α) (a : α) : (s ∪ t).has a = (s.has a || t.has a) :=
  BitVec.getLsbD_or

@[simp] theorem has_inter (s t : FlagSet α) (a : α) : (s ∩ t).has a = (s.has a && t.has a) :=
  BitVec.getLsbD_and

@[simp] theorem has_sdiff (s t : FlagSet α) (a : α) : (s \ t).has a = (s.has a && !t.has a) := by
  have h := Enumeration.index_lt a
  simp [has, SDiff.sdiff, h]

theorem not_mem_empty (a : α) : a ∉ (∅ : FlagSet α) := by simp [mem_def]

theorem mem_singleton {a b : α} : a ∈ ({b} : FlagSet α) ↔ a = b := by
  rw [mem_def, has_singleton, decide_eq_true_iff]
  exact ⟨fun h => (Enumeration.index_inj b a h).symm, fun h => congrArg _ h.symm⟩

theorem mem_union {s t : FlagSet α} {a : α} : a ∈ s ∪ t ↔ a ∈ s ∨ a ∈ t := by
  simp [mem_def]

/-- Two sets with the same members are equal. -/
theorem ext {s t : FlagSet α} (h : ∀ a, s.has a = t.has a) : s = t := by
  obtain ⟨x⟩ := s
  obtain ⟨y⟩ := t
  refine congrArg FlagSet.mk (BitVec.eq_of_getLsbD_eq fun i hi => ?_)
  obtain ⟨a, rfl⟩ := Enumeration.index_surj (α := α) i hi
  exact h a

/-- Two sets meet where they share a member. -/
theorem meets_iff {s t : FlagSet α} : s.meets t = true ↔ ∃ a, s.has a = true ∧ t.has a = true := by
  unfold meets
  rw [bne_iff_ne]
  constructor
  · intro hne
    by_cases h : ∃ a, s.has a = true ∧ t.has a = true
    · exact h
    · refine absurd (ext fun a => ?_) hne
      rw [has_inter, has_empty, Bool.eq_false_iff, Ne, Bool.and_eq_true]
      exact fun ha => h ⟨a, ha⟩
  · rintro ⟨a, hs, ht⟩ heq
    have hboth : (s ∩ t).has a = true := by
      rw [has_inter, hs, ht]
      rfl
    rw [heq, has_empty] at hboth
    cases hboth

/-- The list of a set has its flags, in the order of their numbers. -/
theorem mem_toList {a : α} {s : FlagSet α} : a ∈ s.toList ↔ a ∈ s := by
  simp [toList, Enumeration.mem_all, mem_def]

end FlagSet

end Privatization
