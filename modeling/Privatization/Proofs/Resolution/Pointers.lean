import Privatization.Proofs.Resolution.Traits

/-!
# Memory behind a pointer that changes

Memory reached through a pointer that changes between the iterations has to be a dependence, or
exactly private, read or shared (`copesWithMovingPointer`). The pass over pointers sees to that
where the loop changes the memory of the pointer itself by name, and only there
(`copes_resolvePointers`). The bytes of a pointer may also be changed as part of memory around it, or
piece by piece: `copes_if_disturbed_iff` says when the pass gets this right all the same, and
`disturbed_not_copes_recordStores` shows a loop where it does not.
-/

namespace Privatization

/-- Whether the loop accesses a memory by name, and not only to read it. -/
def Ledger.changes (l : Ledger) (em : EstimateId) : Bool :=
  (l.explicitEntry? em).any fun id => !(l.value id).is .readonly

namespace Scope

variable {s : Scope} {d : DependenceMap} {l : Ledger} {em : EstimateId} {loc : MemoryLocation}

/-- Whether a trait may stay as it is behind a pointer that changes. -/
def copesWithMovingPointer (v : Trait) : Bool := v.is .dependency || toleratesMovingPointer v

/-- Whether the loop changes the memory a pointer is kept in, memory around it or a part of it. -/
def Disturbed (s : Scope) (l : Ledger) (pointer : MemoryLocation) : Prop :=
  ∃ p q, s.tree.find? pointer = some p
    ∧ (s.tree.isEstimateAncestor q p = true ∨ s.tree.isEstimateAncestor p q = true)
    ∧ l.changes q = true

/-! ## What the pass over pointers asks -/

/-- The pass asks for changes of the memory a pointer is kept in, under its own name. -/
theorem mayMove_iff {pointer : MemoryLocation} :
    s.mayMove l pointer = true ↔ ∃ p, s.tree.find? pointer = some p ∧ l.changes p = true := by
  unfold mayMove Ledger.changes
  cases s.tree.find? pointer with
  | none => exact ⟨fun h => (by cases h), fun ⟨p, hp, _⟩ => (by cases hp)⟩
  | some p => exact ⟨fun h => ⟨p, rfl, h⟩, fun ⟨q, hq, h⟩ => Option.some.inj hq ▸ h⟩

/-- Memory that is demoted copes from then on. -/
theorem copes_demoted {v : Trait} {b : Bool} :
    copesWithMovingPointer (v.meet (.onlyIf (!toleratesMovingPointer v && b) .dependency))
      = (copesWithMovingPointer v || b) := by
  unfold copesWithMovingPointer
  rw [tolerates_demoted]
  cases hv : toleratesMovingPointer v with
  | true => rw [Bool.or_true, Bool.or_true, Bool.true_or]
  | false =>
    rw [Bool.not_false, Bool.true_and, Bool.or_false, Bool.or_false]
    cases b with
    | false => exact (congrArg (Trait.is · _) (Trait.meet_noAccess v)).trans (Bool.or_false _).symm
    | true =>
      obtain ⟨access, address⟩ := v
      rw [Bool.or_true]
      cases access <;> rfl

/-! ## What the pass leaves -/

/-- After the pass, memory copes with a moving pointer if it did before, or if one of its accesses
is through a pointer whose own memory the loop changes by name. -/
theorem copes_resolvePointers {l₀ : Ledger}
    (haccesses : s.resolveAccesses { dependences := d } = (l₀, .ok ()))
    (hpointers : s.resolvePointers l₀ = (l, .ok ())) :
    copesWithMovingPointer (l.traitOf em) = true ↔
      copesWithMovingPointer (l₀.traitOf em) = true
        ∨ ∃ loc ∈ s.defUse.explicit, s.tree.find? loc = some em
          ∧ ∃ pointer p, s.pointer? loc = some pointer ∧ s.tree.find? pointer = some p
            ∧ l.changes p = true := by
  have hbefore : (s.resolveAccesses { dependences := d }).2 = .ok () := by rw [haccesses]
  have noted := noted_resolveAccesses hbefore
  have pointed := noted_resolvePointers hbefore
  rw [haccesses] at noted
  rw [haccesses, hpointers] at pointed
  -- An access is endangered if its pointer finds memory that the loop changes.
  have hunsteady : s.defUse.explicit.any (s.unsteady d em) = true ↔
      ∃ loc ∈ s.defUse.explicit, s.tree.find? loc = some em
        ∧ ∃ pointer p, s.pointer? loc = some pointer ∧ s.tree.find? pointer = some p
            ∧ l.changes p = true := by
    rw [List.any_eq_true]
    refine exists_congr fun loc => and_congr_right fun _ => ?_
    unfold unsteady
    rw [Bool.and_eq_true, locates_iff, Option.any_eq_true]
    refine and_congr_right fun _ => exists_congr fun pointer => ?_
    rw [← mayMove_eq pointed fun _ => is_readonly_demoted, mayMove_iff]
    exact exists_and_left.symm
  rw [noted.trait, pointed.trait, ← hunsteady, ← Bool.or_eq_true]
  exact Bool.eq_iff_iff.mp copes_demoted

end Scope

/-! ## The first two passes over a loop -/

variable {settings : Settings} {f : Function} {t : AliasTree} {loop : Loop}
  {depends : DependenceOracle} {modRef : ModRefOracle} {s : Scope} {l₀ l : Ledger}

/-- The ledgers of a loop before and after the pass over pointers, with its scope. -/
def pointerPass (settings : Settings) (f : Function) (t : AliasTree) (loop : Loop)
    (depends : DependenceOracle) (modRef : ModRefOracle) :
    Except ClassifyError (Scope × Ledger × Ledger) := do
  let s ← Scope.ofLoop f t loop
  let dependences ← (s.dependenceSource settings depends modRef).collect
  let (l₀, accesses) := s.resolveAccesses { dependences }
  accesses
  let (l, pointers) := s.resolvePointers l₀
  pointers
  return (s, l₀, l)

theorem pointerPass_eq_ok (h : pointerPass settings f t loop depends modRef = .ok (s, l₀, l)) :
    ∃ d, s.resolveAccesses { dependences := d } = (l₀, .ok ())
      ∧ s.resolvePointers l₀ = (l, .ok ()) := by
  obtain ⟨s', -, h⟩ := bind_eq_ok h
  obtain ⟨d, -, h⟩ := bind_eq_ok h
  obtain ⟨⟨⟩, haccesses, h⟩ := bind_eq_ok h
  obtain ⟨⟨⟩, hpointers, h⟩ := bind_eq_ok h
  cases h
  exact ⟨d, Prod.ext rfl haccesses, Prod.ext rfl hpointers⟩

/-- Every access has its memory, and the memory copes with changes of the bytes of the pointer
exactly if there are none, if it did so before the pass, or if some access of it is through
a pointer whose own memory the loop changes by name. -/
theorem copes_if_disturbed_iff (h : pointerPass settings f t loop depends modRef = .ok (s, l₀, l)) :
    ∀ loc ∈ s.defUse.explicit, ∃ em, s.tree.find? loc = some em
      ∧ ((∀ pointer, s.pointer? loc = some pointer → s.Disturbed l pointer →
            Scope.copesWithMovingPointer (l.traitOf em) = true) ↔
          (∀ pointer, s.pointer? loc = some pointer → ¬s.Disturbed l pointer)
            ∨ Scope.copesWithMovingPointer (l₀.traitOf em) = true
            ∨ ∃ loc' ∈ s.defUse.explicit, s.tree.find? loc' = some em
              ∧ ∃ pointer p, s.pointer? loc' = some pointer ∧ s.tree.find? pointer = some p
                ∧ l.changes p = true) := by
  intro loc hloc
  obtain ⟨d, haccesses, hpointers⟩ := pointerPass_eq_ok h
  obtain ⟨em, hem⟩ := Scope.find?_of_resolveAccesses (congrArg Prod.snd haccesses) hloc
  refine ⟨em, hem, ?_⟩
  rw [← Scope.copes_resolvePointers haccesses hpointers]
  constructor
  · intro hasked
    by_cases hcopes : Scope.copesWithMovingPointer (l.traitOf em) = true
    · exact .inr hcopes
    · exact .inl fun pointer hpointer hdisturbed => hcopes (hasked pointer hpointer hdisturbed)
  · rintro (hundisturbed | hcopes) pointer hpointer hdisturbed
    · exact absurd hdisturbed (hundisturbed pointer hpointer)
    · exact hcopes

/-! A record that holds a pointer. The loop reads the pointer, writes four bytes through it, and
then overwrites the whole record. -/

def recordStoresTree : AliasTree := .ofAdditions [
  .node AliasTree.top .estimate, .node AliasTree.top .estimate,
  .estimate ⟨1⟩ [⟨0⟩] (some 16) 0 none, .estimate ⟨1⟩ [⟨1⟩] (some 8) 0 (some ⟨0⟩),
  .estimate ⟨2⟩ [⟨2⟩] (some 4) 0 none]

def recordStoresFunction : Function where
  name := "records"
  values := #[⟨"s", .alloca ⟨0⟩, none⟩, ⟨"p", .other, none⟩, ⟨"q", .load ⟨⟨1⟩, some 8⟩, none⟩]
  instructions := #[⟨⟨0⟩, ⟨2⟩, .load ⟨⟨1⟩, some 8⟩⟩, ⟨⟨1⟩, ⟨2⟩, .store ⟨⟨2⟩, some 4⟩ none⟩,
    ⟨⟨2⟩, ⟨2⟩, .store ⟨⟨0⟩, some 16⟩ none⟩]
  aliasTree := some recordStoresTree
  defUse := OrderedMap.empty.insert ⟨0⟩
    { explicit := [⟨⟨1⟩, some 8⟩, ⟨⟨2⟩, some 4⟩, ⟨⟨0⟩, some 16⟩]
      uses := .ofList [⟨⟨1⟩, some 8⟩], defs := .ofList [⟨⟨2⟩, some 4⟩, ⟨⟨0⟩, some 16⟩] }
  reach := (OrderedMap.empty.insert ⟨0⟩ ⟨∅, ∅⟩).insert ⟨1⟩ ⟨∅, ∅⟩
  live := OrderedMap.empty.insert ⟨0⟩ (.ofList [⟨⟨2⟩, some 4⟩])
  dependences := OrderedMap.empty.insert (⟨0⟩, ⟨2⟩) ⟨.anti, [.all], []⟩

def recordStoresPass : Except ClassifyError (Scope × Ledger × Ledger) :=
  pointerPass {} recordStoresFunction recordStoresTree twoBlocks recordStoresFunction.depends
    recordStoresFunction.modRef

theorem copes_if_disturbed_iff_recordStores :
    ∃ s l₀ l, recordStoresPass = .ok (s, l₀, l) ∧
      ∀ loc ∈ s.defUse.explicit, ∃ em, s.tree.find? loc = some em
        ∧ ((∀ pointer, s.pointer? loc = some pointer → s.Disturbed l pointer →
              Scope.copesWithMovingPointer (l.traitOf em) = true) ↔
            (∀ pointer, s.pointer? loc = some pointer → ¬s.Disturbed l pointer)
              ∨ Scope.copesWithMovingPointer (l₀.traitOf em) = true
              ∨ ∃ loc' ∈ s.defUse.explicit, s.tree.find? loc' = some em
                ∧ ∃ pointer p, s.pointer? loc' = some pointer ∧ s.tree.find? pointer = some p
                  ∧ l.changes p = true) := by
  obtain ⟨⟨s, l₀, l⟩, h⟩ := exists_of_isOk (x := recordStoresPass) (by decide +kernel)
  exact ⟨s, l₀, l, h, copes_if_disturbed_iff h⟩

/-- The bytes written through the pointer stay last private, although the loop overwrites the record
around the pointer and is known to depend on it between its iterations. -/
theorem disturbed_not_copes_recordStores :
    ∃ s l₀ l, recordStoresPass = .ok (s, l₀, l)
      ∧ ⟨⟨2⟩, some 4⟩ ∈ s.defUse.explicit ∧ s.tree.find? ⟨⟨2⟩, some 4⟩ = some ⟨2⟩
      ∧ s.pointer? ⟨⟨2⟩, some 4⟩ = some ⟨⟨1⟩, some 8⟩ ∧ s.tree.find? ⟨⟨1⟩, some 8⟩ = some ⟨1⟩
      ∧ l.dependences.contains ⟨1⟩ = true
      ∧ s.tree.isEstimateAncestor ⟨0⟩ ⟨1⟩ = true ∧ l.changes ⟨0⟩ = true
      ∧ l.traitOf ⟨2⟩ = Trait.lastPrivate.meet .shareable
      ∧ Scope.copesWithMovingPointer (l.traitOf ⟨2⟩) = false := by
  obtain ⟨⟨s, l₀, l⟩, h⟩ := exists_of_isOk (x := recordStoresPass) (by decide +kernel)
  have hscope : recordStoresPass.toOption.map (fun (s, _, _) =>
      (decide (⟨⟨2⟩, some 4⟩ ∈ s.defUse.explicit), s.tree.find? ⟨⟨2⟩, some 4⟩,
        s.pointer? ⟨⟨2⟩, some 4⟩, s.tree.find? ⟨⟨1⟩, some 8⟩, s.tree.isEstimateAncestor ⟨0⟩ ⟨1⟩))
      = some (true, some ⟨2⟩, some ⟨⟨1⟩, some 8⟩, some ⟨1⟩, true) := by
    decide +kernel
  have hledger : recordStoresPass.toOption.map (fun (_, _, l) =>
      (l.dependences.contains ⟨1⟩, l.changes ⟨0⟩, l.traitOf ⟨2⟩))
      = some (true, true, Trait.lastPrivate.meet .shareable) := by
    decide +kernel
  rw [h] at hscope hledger
  have hscope := Option.some.inj hscope
  have hledger := Option.some.inj hledger
  simp only [Prod.mk.injEq, decide_eq_true_iff] at hscope hledger
  obtain ⟨haccess, hfind, hpointer, hkept, haround⟩ := hscope
  obtain ⟨hrecorded, hchanges, htrait⟩ := hledger
  refine ⟨s, l₀, l, h, haccess, hfind, hpointer, hkept, hrecorded, haround, hchanges, htrait, ?_⟩
  rw [htrait]
  rfl

end Privatization
