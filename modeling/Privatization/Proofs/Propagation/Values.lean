import Privatization.Proofs.Propagation.Reporting
import Privatization.Proofs.Resolution.Traits
import Privatization.Proofs.Trait.Values

/-!
# The values in a classification

Which values the memory of a loop can have. The passes give regular values to all memory they note,
and leave only memory untouched that the loop does not access by name (`is_noAccess_resolvedTrait`).
A verdict is a meet of such values and of copies, so it is regular too (`regular_verdict`). It says
untouched exactly where nothing the memory stands for is accessed by name
(`is_noAccess_verdict_iff`): a copy made further down is made for something that was.

What a memory brings to the summary of its node is the verdict on it without the copy the node makes
(`verdict_eq`), and that copy changes neither whether the memory is only read nor its address.
-/

namespace Privatization

namespace Trait

variable {v : Trait}

/-- What is said under a condition is regular if it is said regularly. -/
theorem regular_onlyIf {b : Bool} (h : v.regular = true) : (onlyIf b v).regular = true := by
  cases b with
  | false => rfl
  | true => exact h

/-- A copy that is made touches memory, and none does not. -/
theorem is_noAccess_copyIn (b : Bool) : (copyIn b).is .noAccess = !b := by
  cases b <;> rfl

/-- Memory of which a last value survives is not just read. -/
theorem onlyRead_of_meets (h : v.categories.meets {.lastPrivate, .secondToLastPrivate} = true) :
    v.onlyRead = false := by
  decide +revert

/-- A copy is no access but a read, and does not touch the address. -/
theorem meet_copyIn (v : Trait) (b : Bool) : (v.meet (.copyIn b)).onlyRead = v.onlyRead
    ∧ (v.meet (.copyIn b)).addressAccess = v.addressAccess := by
  have hread : (copyIn b).onlyRead = true := by cases b <;> rfl
  have haddress : (copyIn b).addressAccess = false := by cases b <;> rfl
  constructor
  · rw [onlyRead_meet, hread, Bool.and_true]
  · show (v.addressAccess || (copyIn b).addressAccess) = _
    rw [haddress, Bool.or_false]

end Trait

namespace Scope

variable {s : Scope} {l : Ledger} {d : DependenceMap} {n : AliasNodeId} {em m : EstimateId}
  {named : EstimateId → Prop}

/-! ## What the passes find -/

/-- An access by name has a regular value, which never leaves its memory untouched. -/
theorem accessTrait_regular (carried : Bool) (loc : MemoryLocation) :
    (s.accessTrait carried loc).regular = true
      ∧ (s.accessTrait carried loc).is .noAccess = false := by
  unfold accessTrait
  cases carried <;> cases s.defUse.hasUse loc <;> cases s.live.overlaps loc <;>
    cases s.defUse.hasDef loc <;> cases s.latch.must.contains loc && !s.exit.may.overlaps loc <;>
    cases s.defUse.hasMayDef loc <;> exact ⟨rfl, rfl⟩

/-- All that the passes find is regular. -/
theorem regular_resolvedTrait : (s.resolvedTrait d em).regular = true := by
  have haccessed : (s.accessed d em).regular = true := by
    refine Trait.regular_meetAll fun v hv => ?_
    obtain ⟨loc, -, rfl⟩ := List.mem_map.mp hv
    exact (accessTrait_regular _ loc).1
  exact Trait.regular_meet (Trait.regular_meet haccessed (Trait.regular_onlyIf rfl))
    (Trait.regular_onlyIf rfl)

/-- The passes leave memory untouched exactly if the loop does not access it by name. -/
theorem is_noAccess_resolvedTrait : (s.resolvedTrait d em).is .noAccess = !s.named em := by
  have haccessed : (s.accessed d em).is .noAccess = !s.named em := by
    unfold accessed Trait.meetOver named
    rw [Trait.is_noAccess_meetAll, List.all_map, List.all_filter, List.not_any_eq_all_not]
    refine List.all_congr rfl fun loc => ?_
    rw [Function.comp_apply, (accessTrait_regular _ loc).2, Bool.or_false]
  have haddress : (Trait.onlyIf (s.escapes em) .addressOnly).is .noAccess = true := by
    cases s.escapes em <;> rfl
  have hdemoted : (Trait.onlyIf (s.demoted d em) .dependency).is .noAccess = !s.demoted d em := by
    cases s.demoted d em <;> rfl
  unfold resolvedTrait
  rw [Trait.is_noAccess_meet, Trait.is_noAccess_meet, haccessed, haddress, hdemoted, Bool.and_true]
  cases hem : s.demoted d em with
  | false => exact Bool.and_true _
  | true => rw [named_of_demoted hem]; rfl

/-- Memory whose address escapes has the mark for it. -/
theorem addressAccess_resolvedTrait (h : s.escapes em = true) :
    (s.resolvedTrait d em).addressAccess = true := by
  unfold resolvedTrait
  rw [h]
  exact Bool.or_true _

/-! ## What is reported -/

section Noted

variable (noted : Noted s d named (s.resolvedTrait d) l)

include noted

/-- The evidence for a memory is regular. -/
theorem regular_evidence : (s.evidence l n m).regular = true := by
  refine Trait.regular_meetAll fun v hv => ?_
  obtain ⟨em, -, rfl⟩ := List.mem_map.mp hv
  rw [noted.trait]
  exact regular_resolvedTrait

/-- The verdict on a memory is regular, since a copy is. -/
theorem regular_verdict : (s.verdict l n m).regular = true :=
  Trait.regular_meet (regular_evidence noted) (Trait.regular_onlyIf rfl)

/-- What a memory brings to its node is regular. -/
theorem regular_incoming : (s.incoming l n m).regular = true :=
  Trait.regular_meet (regular_evidence noted) (Trait.regular_onlyIf rfl)

/-- The evidence for a memory says untouched exactly where nothing it stands for is accessed by
name. -/
theorem is_noAccess_evidence : (s.evidence l n m).is .noAccess = true ↔
    ∀ em ∈ l.explicit.keys, s.standsFor n m em = true → s.named em = false := by
  unfold evidence Trait.meetOver
  rw [Trait.is_noAccess_meetAll, List.all_map, List.all_filter, List.all_eq_true]
  refine forall₂_congr fun em _ => ?_
  rw [Function.comp_apply, noted.trait, is_noAccess_resolvedTrait]
  cases s.standsFor n m em <;> cases s.named em <;> simp

/-- A copy is made only for memory of which something is accessed by name. -/
theorem copies_of_untouched (w : s.tree.WellFormed) (hm : m ∈ s.heads l n)
    (h : (s.evidence l n m).is .noAccess = true) : s.copies l n m = false := by
  rw [is_noAccess_evidence noted] at h
  unfold copies
  rw [List.any_eq_false]
  intro em hkey hcopied
  rw [Bool.and_eq_true] at hcopied
  obtain ⟨hstands, hcopied⟩ := hcopied
  obtain ⟨below, hbelow, hat⟩ := List.any_eq_true.mp hcopied
  obtain ⟨m', hm', hcalls⟩ := List.any_eq_true.mp hat
  rw [Bool.and_eq_true] at hcalls
  -- What the copy was made for stands for nothing but what `m` stands for.
  have huntouched : (s.evidence l below m').is .noAccess = true :=
    (is_noAccess_evidence noted).mpr fun e he hstands' => h e he
      (standsFor_above w (AliasTree.mem_nodePath.mp hbelow).2 hm' hm hcalls.1 hstands' hstands)
  have hread : (s.evidence l below m').onlyRead = true := by
    unfold Trait.onlyRead
    rw [huntouched]
    exact Bool.or_true _
  have hneeds := hcalls.2
  unfold callsForCopy needsCopyIn at hneeds
  rw [Bool.and_eq_true, Bool.and_eq_true] at hneeds
  rw [Trait.onlyRead_of_meets hneeds.1.2] at hread
  cases hread

/-- A verdict says untouched exactly where nothing the memory stands for is accessed by name. -/
theorem is_noAccess_verdict_iff (w : s.tree.WellFormed) (hm : m ∈ s.heads l n) :
    (s.verdict l n m).is .noAccess = true ↔
      ∀ em ∈ l.explicit.keys, s.standsFor n m em = true → s.named em = false := by
  rw [← is_noAccess_evidence noted]
  unfold verdict
  rw [Trait.is_noAccess_meet, Trait.is_noAccess_copyIn, Bool.and_eq_true]
  refine ⟨And.left, fun h => ⟨h, ?_⟩⟩
  rw [copies_of_untouched noted w hm h]
  rfl

/-- A verdict says touched where something the memory stands for is accessed by name. -/
theorem touched_verdict_iff (w : s.tree.WellFormed) (hm : m ∈ s.heads l n) :
    (s.verdict l n m).is .noAccess = false ↔
      ∃ em ∈ l.explicit.keys, s.standsFor n m em = true ∧ s.named em = true := by
  rw [← Bool.not_eq_true, is_noAccess_verdict_iff noted w hm]
  push Not
  simp only [ne_eq, Bool.not_eq_false]

end Noted

/-- The address of untouched memory escapes. -/
theorem addressAccess_of_untouched (w : s.tree.WellFormed)
    (noted : Noted s d (fun em => s.named em = true ∨ s.escapes em = true) (s.resolvedTrait d) l)
    (hm : m ∈ s.heads l n) (h : (s.verdict l n m).is .noAccess = true) :
    (s.verdict l n m).addressAccess = true := by
  obtain ⟨em, hkey, hstands⟩ := exists_standsFor_of_mem_heads hm
  have hnamed := (is_noAccess_verdict_iff noted w hm).mp h em hkey hstands
  have hescapes : s.escapes em = true :=
    ((noted.keys em).mp hkey).resolve_left (by rw [hnamed]; exact Bool.false_ne_true)
  have hevidence : (s.evidence l n m).addressAccess = true := by
    unfold evidence Trait.meetOver
    rw [Trait.addressAccess_meetAll, List.any_eq_true]
    refine ⟨_, List.mem_map.mpr ⟨em, List.mem_filter.mpr ⟨hkey, hstands⟩, rfl⟩, ?_⟩
    rw [noted.trait, addressAccess_resolvedTrait hescapes]
  unfold verdict
  rw [(Trait.meet_copyIn _ _).2, hevidence]

/-! ## What a memory brings to the summary of its node -/

/-- The verdict on a head is what it brings, with the copy that calls for. -/
theorem verdict_eq (hm : m ∈ s.heads l n) : s.verdict l n m = (s.incoming l n m).meet
    (.copyIn (s.needsCopyIn m (s.incoming l n m).categories)) := by
  unfold incoming
  rw [meet_copyIn_needsCopyIn, verdict, copies_eq hm]
  rfl

/-- What a memory brings is read at most if the verdict says so. -/
theorem onlyRead_incoming (hm : m ∈ s.heads l n) :
    (s.incoming l n m).onlyRead = (s.verdict l n m).onlyRead := by
  rw [verdict_eq hm, (Trait.meet_copyIn _ _).1]

/-- The address of incoming memory escapes if the verdict says so. -/
theorem addressAccess_incoming (hm : m ∈ s.heads l n) :
    (s.incoming l n m).addressAccess = (s.verdict l n m).addressAccess := by
  rw [verdict_eq hm, (Trait.meet_copyIn _ _).2]

/-- Incoming memory is only read if the verdict says so. -/
theorem is_readonly_incoming (hm : m ∈ s.heads l n) :
    (s.incoming l n m).is .readonly = (s.verdict l n m).is .readonly := by
  rw [Trait.is_readonly_eq, Trait.is_readonly_eq, onlyRead_incoming hm]
  cases hread : (s.verdict l n m).onlyRead with
  | false => rfl
  | true =>
    -- Memory that is only read gets no copy here.
    have hnone : s.needsCopyIn m (s.incoming l n m).categories = false := by
      refine Bool.eq_false_iff.mpr fun hneeds => ?_
      unfold needsCopyIn at hneeds
      rw [Bool.and_eq_true, Bool.and_eq_true] at hneeds
      rw [← onlyRead_incoming hm, Trait.onlyRead_of_meets hneeds.1.2] at hread
      cases hread
    rw [verdict_eq hm, hnone]
    exact congrArg (fun v : Trait => true && !v.is .noAccess) (Trait.meet_noAccess _).symm

end Scope

end Privatization
