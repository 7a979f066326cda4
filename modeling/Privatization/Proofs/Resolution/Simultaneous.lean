import Privatization.Proofs.Ledger.Reached
import Privatization.Proofs.Resolution.Demotion

/-!
# The pass over pointers on any ledger

Whatever led to a ledger, the pass over pointers demotes on it at once (`resolvePointers_eq`). So
the order of the accesses does not matter, and a second pass finds nothing to do.

What is demoted is the group of an entry. Where memory that is accessed by name was folded together,
an access of one demotes the other (`folded_demoted`); apart from that, memory is judged by its own
accesses.
-/

namespace Privatization

namespace Scope

variable {s : Scope} {l : Ledger} {id : EntryId} {em : EstimateId} {loc : MemoryLocation}
  {done todo : List MemoryLocation}

/-- Some access to a location of `em` is through a pointer that the loop may change. -/
def ViaMovingPointer (s : Scope) (l : Ledger) (em : EstimateId) : Prop :=
  ∃ loc ∈ s.defUse.explicit, s.tree.find? loc = some em
    ∧ ∃ pointer, s.pointer? loc = some pointer ∧ s.mayMove l pointer = true

/-- Some access endangers a group if memory of the group is accessed through a moving pointer. -/
theorem endangers_all_iff : s.defUse.explicit.any (s.endangers l id) = true ↔
    ∃ em, l.explicitEntry? em = some id ∧ s.ViaMovingPointer l em := by
  simp only [List.any_eq_true, endangers, Bool.and_eq_true, decide_eq_true_eq, Option.any_eq_true,
    Option.bind_eq_some_iff, ViaMovingPointer]
  constructor
  · rintro ⟨loc, hloc, ⟨em, hem, hid⟩, hpointer⟩
    exact ⟨em, hid, loc, hloc, hem, hpointer⟩
  · rintro ⟨em, hid, loc, hloc, hem, hpointer⟩
    exact ⟨loc, hloc, ⟨em, hem, hid⟩, hpointer⟩

/-- What is demoted does not depend on the order of the accesses. -/
theorem demotedBy_perm (h : done.Perm todo) : s.demotedBy l done = s.demotedBy l todo := by
  funext id
  unfold demotedBy
  rw [h.any_eq]

/-- Going through the accesses twice demotes what going through them once does. -/
theorem demotedBy_twice (done : List MemoryLocation) :
    s.demotedBy l (done ++ done) = s.demotedBy l done := by
  funext id
  unfold demotedBy
  rw [List.any_append, Bool.or_self]

/-! ## The pass as a whole -/

/-- The pass over accesses by name leads to ledgers that can be reached. -/
theorem reached_resolveAccesses (h : l.Reached) : (s.resolveAccesses l).1.Reached := by
  have hnames : (runSteps s.resolveAccess l s.defUse.explicit).1.Reached := by
    refine runSteps_invariant h fun l loc l' h hl => ?_
    obtain ⟨em, -, rfl⟩ := resolveAccess_eq_ok hl
    exact h.observe s.tree em _
  unfold resolveAccesses
  split
  next l hrun =>
    rw [hrun] at hnames
    refine runSteps_invariant hnames fun l inst l' h hl => ?_
    obtain ⟨node, -, rfl⟩ := resolveUnknown_eq_ok hl
    exact h.elsewhere rfl rfl
  next => exact hnames

/-- On every ledger that can be reached, the pass over pointers demotes, judged by what the ledger
says before the pass, the groups that do not tolerate a moving pointer and have memory that is
accessed through one. All else stays, so a memory that shares its entry with no other is judged by
its own accesses. Every order of the accesses gives the same, and a second pass changes nothing. -/
theorem resolvePointers_simultaneous (s : Scope) {l : Ledger} (hl : l.Reached)
    (hfound : ∀ loc ∈ s.defUse.explicit, (s.tree.find? loc).isSome = true) :
    ∃ l', s.resolvePointers l = (l', .ok ())
      ∧ (∀ em, l'.explicitEntry? em = l.explicitEntry? em)
      ∧ (∀ em id, l.explicitEntry? em = some id →
          ((toleratesMovingPointer (l.value id) = false
              ∧ ∃ e, l.explicitEntry? e = some id ∧ s.ViaMovingPointer l e) →
            l'.value id = (l.value id).meet .dependency)
          ∧ (¬(toleratesMovingPointer (l.value id) = false
              ∧ ∃ e, l.explicitEntry? e = some id ∧ s.ViaMovingPointer l e) →
            l'.value id = l.value id)
          ∧ ((∀ e, l.explicitEntry? e = some id → e = em) →
            ((∃ e, l.explicitEntry? e = some id ∧ s.ViaMovingPointer l e)
              ↔ s.ViaMovingPointer l em)))
      ∧ (∀ order, s.defUse.explicit.Perm order →
          runSteps s.resolvePointer l order = (l', .ok ()))
      ∧ s.resolvePointers l' = (l', .ok ()) := by
  have g := hl.grouped
  refine ⟨l.demote (s.demotedBy l s.defUse.explicit), resolvePointers_eq g hfound,
    Ledger.explicitEntry?_demote, fun em id hid => ?_, fun order horder => ?_, ?_⟩
  · -- Which groups are demoted, in the words of the statement.
    have hdemoted : s.demotedBy l s.defUse.explicit id = true ↔
        toleratesMovingPointer (l.value id) = false
          ∧ ∃ e, l.explicitEntry? e = some id ∧ s.ViaMovingPointer l e := by
      rw [demotedBy, Bool.and_eq_true, Bool.not_eq_true', endangers_all_iff]
    rw [Ledger.value_demote (g.leads hid), ← hdemoted]
    refine ⟨fun h => ?_, fun h => ?_, fun halone => ⟨?_, fun hvia => ⟨em, hid, hvia⟩⟩⟩
    · rw [h]
      rfl
    · rw [Bool.eq_false_iff.mpr h]
      exact Trait.meet_noAccess _
    · rintro ⟨e, he, hvia⟩
      rw [← halone e he]
      exact hvia
  · rw [demotedBy_perm horder]
    exact runSteps_resolvePointer_start g fun loc hloc => hfound loc (horder.mem_iff.mpr hloc)
  -- A second pass is a run over the accesses twice.
  · have hagain : s.resolvePointers (l.demote (s.demotedBy l s.defUse.explicit))
        = (l.demote (s.demotedBy l (s.defUse.explicit ++ s.defUse.explicit)), .ok ()) :=
      runSteps_resolvePointer g hfound
    rw [demotedBy_twice] at hagain
    exact hagain

end Scope

/-! A loop that stores a pointer, four bytes through it, and four bytes of an object. What it stores
is read after the loop, but for the pointer. -/

/-- The locations of the three stores. -/
def lastStores : List MemoryLocation := [⟨⟨1⟩, some 8⟩, ⟨⟨2⟩, some 4⟩, ⟨⟨0⟩, some 4⟩]

/-- Each of them has memory and a node of its own. -/
def lastStoresTree : AliasTree := .ofAdditions [
  .node AliasTree.top .estimate, .node AliasTree.top .estimate, .node AliasTree.top .estimate,
  .estimate ⟨1⟩ [⟨0⟩] (some 4) 0 none, .estimate ⟨2⟩ [⟨1⟩] (some 8) 0 none,
  .estimate ⟨3⟩ [⟨2⟩] (some 4) 0 none]

/-- The loop, with the second value loaded from where the first store goes. -/
def lastStoresScope : Scope where
  function := {
    name := "last"
    values := #[⟨"s", .alloca ⟨0⟩, none⟩, ⟨"p", .alloca ⟨0⟩, none⟩,
      ⟨"q", .load ⟨⟨1⟩, some 8⟩, none⟩] }
  tree := lastStoresTree
  loop := twoBlocks
  defUse := { explicit := lastStores, defs := .ofList lastStores }
  live := .ofList [⟨⟨2⟩, some 4⟩, ⟨⟨0⟩, some 4⟩]
  latch := ⟨∅, ∅⟩
  exit := ⟨∅, ∅⟩

/-- What the accesses of the loop say: entry 1 is for the bytes behind the pointer, entry 2 for the
object. -/
def lastStoresLedger : Ledger := (lastStoresScope.resolveAccesses {}).1

/-- The accesses of the loop lead to a ledger that can be reached. -/
theorem reached_lastStoresLedger : lastStoresLedger.Reached :=
  Scope.reached_resolveAccesses (.start ∅)

/-- The bytes behind the pointer are demoted, and the object is not. -/
theorem resolvePointers_simultaneous_lastStores :
    lastStoresLedger.Reached
      ∧ (∀ loc ∈ lastStores, (lastStoresTree.find? loc).isSome = true)
      ∧ ∃ l', lastStoresScope.resolvePointers lastStoresLedger = (l', .ok ())
        ∧ l'.value ⟨1⟩ = (lastStoresLedger.value ⟨1⟩).meet .dependency
        ∧ l'.value ⟨2⟩ = lastStoresLedger.value ⟨2⟩
        ∧ runSteps lastStoresScope.resolvePointer lastStoresLedger lastStores.reverse = (l', .ok ())
        ∧ lastStoresScope.resolvePointers l' = (l', .ok ()) := by
  have hfound : ∀ loc ∈ lastStores, (lastStoresTree.find? loc).isSome = true := by decide +kernel
  obtain ⟨l', hl', -, hvalue, horder, hagain⟩ :=
    Scope.resolvePointers_simultaneous lastStoresScope reached_lastStoresLedger hfound
  have hbytes : lastStoresLedger.explicitEntry? ⟨2⟩ = some ⟨1⟩ := by decide +kernel
  have hobject : lastStoresLedger.explicitEntry? ⟨0⟩ = some ⟨2⟩ := by decide +kernel
  have hvia : lastStoresScope.ViaMovingPointer lastStoresLedger ⟨2⟩ :=
    ⟨⟨⟨2⟩, some 4⟩, by decide, by decide +kernel, ⟨⟨1⟩, some 8⟩, by decide, by decide +kernel⟩
  have hdirect : lastStoresScope.demotedBy lastStoresLedger lastStores ⟨2⟩ = false := by
    decide +kernel
  refine ⟨reached_lastStoresLedger, hfound, l', hl', ?_, ?_, ?_, hagain⟩
  · apply (hvalue ⟨2⟩ ⟨1⟩ hbytes).1
    exact ⟨by decide +kernel, ⟨2⟩, hbytes, hvia⟩
  · apply (hvalue ⟨0⟩ ⟨2⟩ hobject).2.1
    rintro ⟨htolerates, hsome⟩
    rw [Scope.demotedBy, htolerates] at hdirect
    exact Bool.false_ne_true (hdirect.symm.trans (Scope.endangers_all_iff.mpr hsome))
  · exact horder _ (List.reverse_perm _).symm

/-- Where the two were folded together before, the object is demoted with the bytes, although no
access of it is through a pointer. -/
theorem folded_demoted : ∃ l', (lastStoresLedger.fold ⟨1⟩ ⟨2⟩).Reached
    ∧ (∀ loc ∈ lastStores, (lastStoresTree.find? loc).isSome = true)
    ∧ lastStoresScope.resolvePointers (lastStoresLedger.fold ⟨1⟩ ⟨2⟩) = (l', .ok ())
    ∧ Ledger.explicitEntry? (lastStoresLedger.fold ⟨1⟩ ⟨2⟩) ⟨0⟩ = some ⟨2⟩
    ∧ ¬lastStoresScope.ViaMovingPointer (lastStoresLedger.fold ⟨1⟩ ⟨2⟩) ⟨0⟩
    ∧ (lastStoresLedger.fold ⟨1⟩ ⟨2⟩).value ⟨2⟩ = Trait.lastPrivate.meet .shareable
    ∧ l'.value ⟨2⟩ = .dependency := by
  have hsize : lastStoresLedger.entries.size = 3 := by decide +kernel
  have hreached : (lastStoresLedger.fold ⟨1⟩ ⟨2⟩).Reached :=
    reached_lastStoresLedger.fold (by rw [hsize]; decide) (by rw [hsize]; decide)
  refine ⟨_, hreached, by decide +kernel, Scope.resolvePointers_eq hreached.grouped
    (by decide +kernel), by decide +kernel, ?_, by decide +kernel, by decide +kernel⟩
  rintro ⟨loc, hloc, hem, pointer, hpointer, -⟩
  -- The one location of the object is accessed through its own name.
  have hdirect : ∀ loc ∈ lastStores, lastStoresTree.find? loc = some ⟨0⟩ →
      lastStoresScope.pointer? loc = none := by
    decide +kernel
  rw [hdirect loc hloc hem] at hpointer
  cases hpointer

end Privatization
