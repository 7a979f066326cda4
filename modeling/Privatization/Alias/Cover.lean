import Privatization.Alias.Walk

/-!
# Byte coverage

Whether pieces of an object span a part of it without gaps, decided by one sweep over the byte
ranges of the pieces in ascending order.
-/

namespace Privatization

/-- The bytes from `start` up to, and without, `stop`. -/
structure ByteRange where
  start : Nat
  stop : Nat
  deriving DecidableEq

namespace ByteRange

instance : Membership Nat ByteRange where
  mem r b := r.start ≤ b ∧ b < r.stop

instance (b : Nat) (r : ByteRange) : Decidable (b ∈ r) :=
  inferInstanceAs (Decidable (r.start ≤ b ∧ b < r.stop))

/-- Ascending by start, then by end. -/
def le (a b : ByteRange) : Bool := a.start < b.start || (a.start == b.start && a.stop ≤ b.stop)

/-- Whether ascending ranges span everything from `reached` to `stop`. -/
def sweep (stop reached : Nat) : List ByteRange → Bool
  | [] => stop ≤ reached
  | r :: rs =>
    if stop ≤ reached then true
    else if r.stop ≤ reached then sweep stop reached rs
    else if reached < r.start then false
    else sweep stop r.stop rs

/-- Whether at least one range is given and the ranges together span `target`. -/
def spanned (target : ByteRange) (ranges : List ByteRange) : Bool :=
  !ranges.isEmpty && sweep target.stop target.start (ranges.mergeSort le)

end ByteRange

namespace Estimate

/-- The bytes of the memory inside its outermost object. A range that would pass the last address
ends there, and so does one of unknown size. -/
def range (e : Estimate) : ByteRange :=
  ⟨e.offset, (e.size.map fun n => min (e.offset + n) addressLimit).getD addressLimit⟩

end Estimate

namespace AliasTree

variable (t : AliasTree)

/-- Whether the byte ranges of `pieces` span `target` without gaps. Pieces of another outermost
object do not count. -/
def covers (target : EstimateId) (pieces : List EstimateId) : Bool :=
  let ranges := (pieces.filter fun p => t.outermost p == t.outermost target).filterMap
    fun p => (t.estimate? p).map (·.range)
  match t.estimate? target with
  | none => false
  | some e => e.range.spanned ranges

end AliasTree

end Privatization
