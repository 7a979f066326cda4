import Mathlib.Algebra.BigOperators.Group.List.Basic
import Privatization.Trait.Statistics

/-!
# Sums of statistics

Statistics add up counter by counter, so they form a commutative monoid, and the statistics of
several results are the sum of a list. Eight of the counters stand for results (`Counter`); what
such a counter holds after several results were tallied is how many of them it counts
(`Counter.of_sum`).
-/

namespace Privatization

/-- A dependence is a flow, an anti or an output dependence. -/
theorem FlagSet.isDependency_eq (c : Categories) :
    FlagSet.isDependency c = (c.has .flow || c.has .anti || c.has .output) := by
  unfold FlagSet.isDependency
  rw [Bool.eq_iff_iff, FlagSet.meets_iff, Bool.or_eq_true, Bool.or_eq_true]
  constructor
  · rintro ⟨a, hc, ha⟩
    have hkind : a = .flow ∨ a = .anti ∨ a = .output := by
      revert ha
      cases a <;> decide
    rcases hkind with rfl | rfl | rfl
    · exact .inl (.inl hc)
    · exact .inl (.inr hc)
    · exact .inr hc
  · rintro ((hc | hc) | hc)
    · exact ⟨.flow, hc, by decide⟩
    · exact ⟨.anti, hc, by decide⟩
    · exact ⟨.output, hc, by decide⟩

namespace Statistics

instance : Zero Statistics := ⟨{}⟩

instance : AddCommMonoid Statistics where
  add_assoc := add_assoc
  zero_add a := (add_comm _ a).trans (add_empty a)
  add_zero := add_empty
  add_comm := add_comm
  nsmul := nsmulRec

/-- What a filter leaves adds up to what everything does if the rest adds nothing. -/
theorem sum_map_filter {α : Type} (p : α → Bool) (f : α → Statistics) (as : List α) :
    ((as.filter p).map f).sum = (as.map fun a => if p a then f a else 0).sum := by
  rw [List.sum_map_ite]
  simp

/-! ## Tallies -/

/-- To tally nothing counts nothing. -/
theorem tally_zero (c : Categories) : tally c 0 = 0 := by
  unfold tally
  simp only [ite_self]
  rfl

/-- To tally under a condition counts one result or none. -/
theorem tally_ite (c : Categories) (b : Bool) :
    tally c (if b then 1 else 0) = if b then tally c 1 else 0 := by
  cases b with
  | false => exact tally_zero c
  | true => rfl

/-- A category that comes later may be tallied later. -/
theorem tally_firstPrivate {c : Categories} (h : c.has .firstPrivate = false) (k : UInt64) :
    tally c k + tally {.firstPrivate} k = tally (c ∪ {.firstPrivate}) k := by
  show add (tally c k) (tally {.firstPrivate} k) = tally (c ∪ {.firstPrivate}) k
  simp [add, tally, FlagSet.isDependency_eq, h, Enumeration.index, Category.index]

/-- The mark of an explicit access is not tallied. -/
theorem tally_explicit (c : Categories) (k : UInt64) :
    tally (c ∪ {.explicitAccess}) k = tally c k := by
  simp [tally, FlagSet.isDependency_eq, Enumeration.index, Category.index]

/-- A word that adds up, and that a single result raises by one where it passes a test, holds after
a list of results how many of them do. -/
theorem word_sum (word : Statistics → UInt64) {p : Categories → Bool} (hzero : word 0 = 0)
    (hadd : ∀ a b, word (a + b) = word a + word b)
    (htally : ∀ c, word (tally c 1) = if p c then 1 else 0) (cs : List Categories) :
    word (cs.map (tally · 1)).sum = .ofNat (cs.countP p) := by
  induction cs with
  | nil => exact hzero
  | cons c cs ih =>
    rw [List.map_cons, List.sum_cons, hadd, ih, htally, List.countP_cons]
    split
    · rw [UInt64.ofNat_add, UInt64.add_comm]
      rfl
    · rw [UInt64.zero_add, Nat.add_zero]

/-- After results were tallied one by one, the word for escaping addresses holds how many
there are. -/
theorem addressAccess_sum (cs : List Categories) :
    (cs.map (tally · 1)).sum.addressAccess = .ofNat (cs.countP (·.has .addressAccess)) :=
  word_sum Statistics.addressAccess rfl (fun _ _ => rfl) (fun _ => rfl) cs

/-! ## Counters -/

/-- The counters that stand for results. An escaping address is no result of its own. -/
inductive Counter where
  | readonly
  | shared
  | private_
  | firstPrivate
  | lastPrivate
  | secondToLastPrivate
  | dynamicPrivate
  | dependency
  deriving DecidableEq

namespace Counter

/-- What the counter holds. -/
def of (a : Statistics) : Counter → UInt64
  | readonly => a.readonly
  | shared => a.shared
  | private_ => a.private_
  | firstPrivate => a.firstPrivate
  | lastPrivate => a.lastPrivate
  | secondToLastPrivate => a.secondToLastPrivate
  | dynamicPrivate => a.dynamicPrivate
  | dependency => a.dependency

/-- Whether the counter counts a result that is reported under `c`. -/
def counts (c : Categories) : Counter → Bool
  | readonly => c.has .readonly
  | shared => c.has .shared
  | private_ => c.has .private_
  | firstPrivate => c.has .firstPrivate
  | lastPrivate => c.has .lastPrivate
  | secondToLastPrivate => c.has .secondToLastPrivate
  | dynamicPrivate => c.has .dynamicPrivate
  | dependency => c.isDependency

/-- Counters add up. -/
theorem of_add (k : Counter) (a b : Statistics) : k.of (a + b) = k.of a + k.of b := by
  cases k <;> rfl

/-- A tally raises the counters that count the result. -/
theorem of_tally (k : Counter) (c : Categories) (n : UInt64) :
    k.of (tally c n) = if k.counts c then n else 0 := by
  cases k <;> rfl

/-- After results were tallied one by one, a counter holds how many it counts. -/
theorem of_sum (k : Counter) (cs : List Categories) :
    k.of (cs.map (tally · 1)).sum = .ofNat (cs.countP k.counts) :=
  word_sum (of · k) (by cases k <;> rfl) k.of_add (k.of_tally · 1) cs

end Counter

end Statistics

end Privatization
