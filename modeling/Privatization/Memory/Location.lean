import Privatization.Ident

/-!
# Memory locations

A location is a pointer with the number of bytes accessed through it. An unknown number of bytes
is larger than every known one.
-/

namespace Privatization

/-- The largest byte address; a range that would pass it ends there. -/
def addressLimit : Nat := 0xffffffffffffffff

/-- A pointer and the number of bytes accessed through it, `none` if that is not known. -/
structure MemoryLocation where
  ptr : ValueId
  size : Option Nat
  deriving DecidableEq

/-- The written form of a size: digits, or a question mark for an unknown one. -/
def showSize : Option Nat → String
  | some n => toString n
  | none => "?"

namespace MemoryLocation

instance : ToString MemoryLocation := ⟨fun l => s!"{l.ptr}:{showSize l.size}"⟩

/-- Whether an access of `big` bytes spans one of `small` bytes at the same place. -/
def sizeCovers : Option Nat → Option Nat → Bool
  | none, _ => true
  | some _, none => false
  | some big, some small => small ≤ big

/-- Whether `a` spans at least the bytes of `b`. Both must start at the same pointer. -/
def covers (a b : MemoryLocation) : Bool :=
  a.ptr == b.ptr && sizeCovers a.size b.size

theorem sizeCovers_refl (s : Option Nat) : sizeCovers s s = true := by
  cases s <;> simp [sizeCovers]

theorem sizeCovers_trans {r s t : Option Nat} (h₁ : sizeCovers r s = true)
    (h₂ : sizeCovers s t = true) : sizeCovers r t = true := by
  cases r <;> cases s <;> cases t <;> simp_all [sizeCovers]; omega

/-- Of two sizes one covers the other, an unknown size covering every other. -/
theorem sizeCovers_total (s t : Option Nat) : sizeCovers s t = true ∨ sizeCovers t s = true := by
  cases s <;> cases t <;> simp [sizeCovers]; omega

@[simp] theorem covers_refl (a : MemoryLocation) : a.covers a = true := by
  simp [covers, sizeCovers_refl]

/-- Covering is transitive among locations of one pointer. -/
theorem covers_trans {a b c : MemoryLocation} (h₁ : a.covers b = true) (h₂ : b.covers c = true) :
    a.covers c = true := by
  simp only [covers, Bool.and_eq_true, beq_iff_eq] at *
  exact ⟨h₁.1.trans h₂.1, sizeCovers_trans h₁.2 h₂.2⟩

end MemoryLocation

end Privatization
