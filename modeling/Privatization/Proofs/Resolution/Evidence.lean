import Privatization.Proofs.Dependence.Collection
import Privatization.Proofs.Resolution.Traits

/-!
# More recorded dependences

How the verdicts of the passes change when the dependence test answers more pairs. An access never
gets a better trait for a recorded dependence, but it may get a plainer one: without record, memory
that is written first is private and shared, with a record it is private alone. The pass over
pointers leaves exactly private memory alone and demotes the other kind, so a record can take
a dependence back in this one case (`isDependency_or_private_of_extends`).
-/

namespace Privatization

namespace Trait

/-- Marking an address does not change what the access is. -/
theorem is_private_meet_addressOnly {v : Trait} (b : Bool) :
    (v.meet (.onlyIf b .addressOnly)).is .private_ = v.is .private_ := by
  show ((⟨v.access.meet (onlyIf b addressOnly).access, false⟩ : Trait) == privateOnly)
    = ((⟨v.access, false⟩ : Trait) == privateOnly)
  have htop : (onlyIf b addressOnly).access = .independent .unwritten false false := by
    cases b <;> rfl
  rw [htop, Access.meet_top]

theorem isDependency_onlyIf (b : Bool) :
    (onlyIf b dependency).isDependency = b ∧ (onlyIf b addressOnly).isDependency = false := by
  cases b <;> exact ⟨rfl, rfl⟩

end Trait

namespace Scope

variable {s : Scope} {em : EstimateId} {loc : MemoryLocation} {d d₁ d₂ : DependenceMap}

/-! ## The trait of an access -/

/-- Without recorded dependence, an access that reads first only reads. -/
theorem accessTrait_of_hasUse (h : s.defUse.hasUse loc = true) :
    s.accessTrait false loc = .readonly := by
  unfold accessTrait
  rw [h]
  rfl

/-- An access that does not read first is a write, recorded or not. -/
theorem writes_accessTrait (carried : Bool) (h : s.defUse.hasUse loc = false) :
    (s.accessTrait carried loc).writes = true := by
  unfold accessTrait
  rw [h]
  cases carried <;> cases s.live.overlaps loc <;> cases s.defUse.hasDef loc <;>
    cases s.latch.must.contains loc && !s.exit.may.overlaps loc <;> rfl

/-- An access shares its memory if it does not read first and no dependence is recorded. -/
theorem shares_accessTrait (carried : Bool) :
    (s.accessTrait carried loc).shares = (!s.defUse.hasUse loc && !carried) := by
  unfold accessTrait
  cases carried <;> cases s.defUse.hasUse loc <;> cases s.live.overlaps loc <;>
    cases s.defUse.hasDef loc <;> cases s.latch.must.contains loc && !s.exit.may.overlaps loc <;>
    cases s.defUse.hasMayDef loc <;> rfl

/-- Without a record no access is a dependence. -/
theorem isDependency_accessTrait : (s.accessTrait false loc).isDependency = false := by
  unfold accessTrait
  cases s.defUse.hasUse loc <;> cases s.live.overlaps loc <;> cases s.defUse.hasDef loc <;>
    cases s.latch.must.contains loc && !s.exit.may.overlaps loc <;> rfl

/-! ## The traits of a memory -/

/-- What the accesses to a memory say if a dependence on it is recorded, or if none is. -/
def accessedIf (s : Scope) (carried : Bool) (em : EstimateId) : Trait :=
  .meetOver s.defUse.explicit (s.locates em) (s.accessTrait carried)

theorem accessed_eq (d : DependenceMap) (em : EstimateId) :
    s.accessed d em = s.accessedIf (d.contains em) em := rfl

theorem isDependency_accessedIf : (s.accessedIf false em).isDependency = false := by
  unfold accessedIf Trait.meetOver
  rw [Trait.isDependency_meetAll, List.any_map, List.any_eq_false]
  intro loc _
  rw [Function.comp_apply, isDependency_accessTrait]
  exact Bool.false_ne_true

theorem shares_accessedIf : (s.accessedIf true em).shares = false := by
  refine Bool.eq_false_iff.mpr fun hshares => ?_
  obtain ⟨-, v, hv, hshares⟩ := Trait.shares_meetAll_iff.mp hshares
  obtain ⟨loc, -, rfl⟩ := List.mem_map.mp hv
  rw [shares_accessTrait, Bool.not_true, Bool.and_false] at hshares
  cases hshares

/-- Memory that is only read with a recorded dependence is only read without it. -/
theorem is_readonly_accessedIf (h : (s.accessedIf true em).is .readonly = true) :
    (s.accessedIf false em).is .readonly = true := by
  have haccess : (s.accessedIf true em).access = .independent .unwritten true false :=
    congrArg Trait.access (eq_of_beq h)
  have hdependency : (s.accessedIf true em).isDependency = false := by
    unfold Trait.isDependency
    rw [haccess]
    rfl
  have hwrites : (s.accessedIf true em).writes = false := by
    unfold Trait.writes Trait.flag
    rw [haccess]
    rfl
  -- None of the accesses writes, so each of them reads first.
  unfold accessedIf Trait.meetOver at hdependency hwrites
  rw [Trait.writes_meetAll hdependency, List.any_map, List.any_eq_false] at hwrites
  have hreads (loc : MemoryLocation) (hloc : loc ∈ s.defUse.explicit.filter (s.locates em)) :
      s.defUse.hasUse loc = true := by
    cases huse : s.defUse.hasUse loc with
    | true => rfl
    | false => exact absurd (writes_accessTrait true huse) (hwrites loc hloc)
  have hne : (s.defUse.explicit.filter (s.locates em)).map (s.accessTrait false) ≠ [] := by
    rw [ne_eq, List.map_eq_nil_iff]
    intro hnil
    unfold accessedIf Trait.meetOver at haccess
    rw [hnil] at haccess
    cases haccess
  have hreadonly : s.accessedIf false em = .readonly := by
    refine Trait.meetAll_eq hne fun v hv => ?_
    obtain ⟨loc, hloc, rfl⟩ := List.mem_map.mp hv
    exact accessTrait_of_hasUse (hreads loc hloc)
  rw [hreadonly]
  rfl

/-- Memory that a recorded dependence makes tolerate a moving pointer is exactly private. -/
theorem tolerates_accessedIf (h : toleratesMovingPointer (s.accessedIf true em) = true) :
    toleratesMovingPointer (s.accessedIf false em) = true
      ∨ (s.accessedIf true em).is .private_ = true := by
  unfold toleratesMovingPointer at h
  rw [Bool.or_eq_true, Bool.or_eq_true] at h
  rcases h with (hprivate | hreadonly) | hshared
  · exact .inr hprivate
  · refine .inl ?_
    unfold toleratesMovingPointer
    rw [is_readonly_accessedIf hreadonly, Bool.or_true, Bool.true_or]
  · -- Nothing is shared where a dependence is recorded.
    have haccess : (s.accessedIf true em).access = .independent .unwritten true true :=
      congrArg Trait.access (eq_of_beq hshared)
    have hshares : (s.accessedIf true em).shares = false := s.shares_accessedIf
    unfold Trait.shares Trait.flag at hshares
    rw [haccess] at hshares
    cases hshares

/-! ## Two records -/

/-- A memory is a dependence if its accesses say so or a moving pointer demotes it. -/
theorem isDependency_resolvedTrait (d : DependenceMap) (em : EstimateId) :
    (s.resolvedTrait d em).isDependency = ((s.accessed d em).isDependency || s.demoted d em) := by
  unfold resolvedTrait
  rw [Trait.isDependency_meet, Trait.isDependency_meet, (Trait.isDependency_onlyIf _).1,
    (Trait.isDependency_onlyIf _).2, Bool.or_false]

section Extension

variable (hmore : ∀ em ∈ d₁.keys, em ∈ d₂.keys)

include hmore

/-- A memory has the record it had, or gets one. -/
theorem contains_cases (em : EstimateId) : d₂.contains em = d₁.contains em
    ∨ (d₁.contains em = false ∧ d₂.contains em = true) := by
  cases h₁ : d₁.contains em with
  | true => exact .inl (decide_eq_true (hmore em (of_decide_eq_true h₁)))
  | false =>
    cases h₂ : d₂.contains em with
    | true => exact .inr ⟨rfl, rfl⟩
    | false => exact .inl rfl

/-- A pointer that may change may do so with more dependences recorded. -/
theorem moves_mono {pointer : MemoryLocation} (h : s.moves d₁ pointer = true) :
    s.moves d₂ pointer = true := by
  unfold moves at h ⊢
  rw [Option.any_eq_true] at h ⊢
  obtain ⟨em, hem, h⟩ := h
  rw [Bool.and_eq_true, Bool.not_eq_true'] at h
  refine ⟨em, hem, ?_⟩
  rw [h.1, Bool.true_and, Bool.not_eq_true', Bool.eq_false_iff]
  intro hreadonly
  rcases contains_cases hmore em with hsame | ⟨hfirst, hsecond⟩
  · rw [accessed_eq, hsame, ← accessed_eq, h.2] at hreadonly
    cases hreadonly
  · rw [accessed_eq, hsecond] at hreadonly
    rw [accessed_eq, hfirst, is_readonly_accessedIf hreadonly] at h
    cases h.2

/-- A pointer that may move with fewer dependences recorded may move with more. -/
theorem unsteady_mono (h : s.defUse.explicit.any (s.unsteady d₁ em) = true) :
    s.defUse.explicit.any (s.unsteady d₂ em) = true := by
  rw [List.any_eq_true] at h ⊢
  obtain ⟨loc, hloc, h⟩ := h
  unfold unsteady at h ⊢
  rw [Bool.and_eq_true, Option.any_eq_true] at h
  obtain ⟨hlocates, pointer, hpointer, hmoves⟩ := h
  refine ⟨loc, hloc, ?_⟩
  rw [Bool.and_eq_true, Option.any_eq_true]
  exact ⟨hlocates, pointer, hpointer, moves_mono hmore hmoves⟩

/-- With more dependences recorded, a dependence stays one, unless its memory had no record, gets
one and is left exactly private by it. -/
theorem isDependency_resolvedTrait_mono (h : (s.resolvedTrait d₁ em).isDependency = true) :
    (s.resolvedTrait d₂ em).isDependency = true
      ∨ ((s.resolvedTrait d₂ em).is .private_ = true
        ∧ d₁.contains em = false ∧ d₂.contains em = true) := by
  rw [isDependency_resolvedTrait, Bool.or_eq_true] at h
  rw [isDependency_resolvedTrait, Bool.or_eq_true]
  rcases contains_cases hmore em with hsame | ⟨hfirst, hsecond⟩
  · -- The accesses say what they said, so only the pointers matter.
    have hsame : s.accessed d₂ em = s.accessed d₁ em := by rw [accessed_eq, hsame, ← accessed_eq]
    refine .inl (h.imp (fun h => hsame ▸ h) fun h => ?_)
    unfold demoted at h ⊢
    rw [Bool.and_eq_true] at h ⊢
    rw [hsame]
    exact ⟨h.1, unsteady_mono hmore h.2⟩
  · -- The second map records a dependence that the first does not have.
    rw [accessed_eq, hfirst, isDependency_accessedIf] at h
    have h := h.resolve_left Bool.false_ne_true
    unfold demoted at h
    rw [accessed_eq, hfirst, Bool.and_eq_true, Bool.not_eq_true'] at h
    cases htolerates : toleratesMovingPointer (s.accessedIf true em) with
    | false =>
      refine .inl (.inr ?_)
      unfold demoted
      rw [accessed_eq, hsecond, htolerates, unsteady_mono hmore h.2]
      rfl
    | true =>
      -- A value that tolerates a moving pointer without being a dependence is private.
      have hprivate := (tolerates_accessedIf htolerates).resolve_left
        (by rw [h.1]; exact Bool.false_ne_true)
      refine .inr ⟨?_, hfirst, hsecond⟩
      unfold resolvedTrait demoted
      rw [Trait.is_private_meet_addressOnly, accessed_eq, hsecond, htolerates, Bool.not_true,
        Bool.false_and]
      exact (congrArg (Trait.is · .private_) (Trait.meet_noAccess _)).trans hprivate

end Extension

end Scope

/-! ## Two classifications -/

variable {settings : Settings} {f : Function} {t : AliasTree} {loop : Loop}
  {first second : DependenceOracle} {modRef : ModRefOracle} {l₁ l₂ : Ledger} {em : EstimateId}

/-- Where the second oracle answers whatever the first does, memory that the passes make a
dependence under the first is one under the second, unless a dependence on it is recorded under the
second only and leaves it exactly private, which no moving pointer demotes. -/
theorem isDependency_or_private_of_extends (hmore : second.Extends first)
    (h₁ : resolveLoop settings f t loop first modRef = .ok l₁)
    (h₂ : resolveLoop settings f t loop second modRef = .ok l₂)
    (h : (l₁.traitOf em).isDependency = true) :
    (l₂.traitOf em).isDependency = true
      ∨ ((l₂.traitOf em).is .private_ = true ∧ l₁.dependences.contains em = false
        ∧ l₂.dependences.contains em = true) := by
  obtain ⟨s, d₁, st₁⟩ := resolveLoop_eq_ok.mp h₁
  obtain ⟨s₂, d₂, st₂⟩ := resolveLoop_eq_ok.mp h₂
  obtain rfl : s = s₂ := Except.ok.inj (st₁.scope.symm.trans st₂.scope)
  have noted₁ := Scope.noted_resolve st₁.ledger
  have noted₂ := Scope.noted_resolve st₂.ledger
  have hkeys := DependenceSource.collect_mono (s := s.dependenceSource settings first modRef) hmore
    st₁.dependences st₂.dependences
  rw [noted₁.trait] at h
  rw [noted₂.trait, noted₁.dependences, noted₂.dependences]
  exact Scope.isDependency_resolvedTrait_mono hkeys h

/-! A loop that stores a pointer and writes four bytes through what it stored. Nothing is recorded
about the bytes under `noAnswers`, and a dependence on themselves under `selfAnswer`. -/

/-- The pointer and, behind it, the bytes. -/
def pointerStores : List MemoryLocation := [⟨⟨0⟩, some 8⟩, ⟨⟨1⟩, some 4⟩]

def pointerStoresTree : AliasTree := .ofAdditions [
  .node AliasTree.top .estimate, .node AliasTree.top .estimate,
  .estimate ⟨1⟩ [⟨0⟩] (some 8) 0 none, .estimate ⟨2⟩ [⟨1⟩] (some 4) 0 none]

def pointerStoresFunction : Function where
  name := "stores"
  values := #[⟨"p", .alloca ⟨0⟩, none⟩, ⟨"q", .load ⟨⟨0⟩, some 8⟩, none⟩]
  instructions := #[⟨⟨0⟩, ⟨2⟩, .store ⟨⟨0⟩, some 8⟩ none⟩, ⟨⟨1⟩, ⟨2⟩, .store ⟨⟨1⟩, some 4⟩ none⟩]
  aliasTree := some pointerStoresTree
  defUse := OrderedMap.empty.insert ⟨0⟩ { explicit := pointerStores, defs := .ofList pointerStores }
  reach := (OrderedMap.empty.insert ⟨0⟩ ⟨∅, ∅⟩).insert ⟨1⟩ ⟨∅, ∅⟩
  live := OrderedMap.empty.insert ⟨0⟩ ∅

def noAnswers : DependenceOracle := fun _ _ _ => none

/-- The second instruction depends on itself and nothing else depends on anything. -/
def selfAnswer : DependenceOracle := fun src dst _ =>
  if src = ⟨1⟩ ∧ dst = ⟨1⟩ then some ⟨.output, [.all], []⟩ else none

/-- The ledger of the loop under an oracle. -/
def pointerStoresLedger (depends : DependenceOracle) : Except ClassifyError Ledger :=
  resolveLoop {} pointerStoresFunction pointerStoresTree twoBlocks depends
    pointerStoresFunction.modRef

/-- The bytes are a dependence while nothing is recorded about them. -/
theorem isDependency_or_private_of_extends_pointerStores :
    ∃ l₁ l₂, selfAnswer.Extends noAnswers ∧ pointerStoresLedger noAnswers = .ok l₁
      ∧ pointerStoresLedger selfAnswer = .ok l₂ ∧ (l₁.traitOf ⟨1⟩).isDependency = true
      ∧ ((l₂.traitOf ⟨1⟩).isDependency = true
        ∨ ((l₂.traitOf ⟨1⟩).is .private_ = true ∧ l₁.dependences.contains ⟨1⟩ = false
          ∧ l₂.dependences.contains ⟨1⟩ = true)) := by
  have hmore : selfAnswer.Extends noAnswers := fun _ _ _ _ h => by cases h
  obtain ⟨l₁, h₁⟩ := exists_of_isOk (x := pointerStoresLedger noAnswers) (by decide)
  obtain ⟨l₂, h₂⟩ := exists_of_isOk (x := pointerStoresLedger selfAnswer) (by decide)
  have heval : (pointerStoresLedger noAnswers).toOption.map (fun l => (l.traitOf ⟨1⟩).isDependency)
      = some true := by decide
  rw [h₁] at heval
  have h : (l₁.traitOf ⟨1⟩).isDependency = true := Option.some.inj heval
  exact ⟨l₁, l₂, hmore, h₁, h₂, h, isDependency_or_private_of_extends hmore h₁ h₂ h⟩

/-- The stores are no dependence any more once a dependence on them is recorded, although the loop
is classified under either oracle. -/
theorem isDependency_not_kept_pointerStores :
    ∃ l₁ l₂, selfAnswer.Extends noAnswers
      ∧ (∀ depends ∈ [noAnswers, selfAnswer], (classifyLoop {} pointerStoresFunction
        pointerStoresTree twoBlocks depends pointerStoresFunction.modRef).isOk = true)
      ∧ pointerStoresLedger noAnswers = .ok l₁ ∧ pointerStoresLedger selfAnswer = .ok l₂
      ∧ (l₁.traitOf ⟨1⟩).isDependency = true ∧ (l₂.traitOf ⟨1⟩).isDependency = false := by
  obtain ⟨l₁, h₁⟩ := exists_of_isOk (x := pointerStoresLedger noAnswers) (by decide)
  obtain ⟨l₂, h₂⟩ := exists_of_isOk (x := pointerStoresLedger selfAnswer) (by decide)
  have heval (depends : DependenceOracle) (l : Ledger) (h : pointerStoresLedger depends = .ok l) :
      (pointerStoresLedger depends).toOption.map (fun l => (l.traitOf ⟨1⟩).isDependency)
        = some (l.traitOf ⟨1⟩).isDependency := by
    rw [h]
    rfl
  refine ⟨l₁, l₂, fun _ _ _ _ h => (by cases h), fun depends hd => ?_, h₁, h₂, ?_, ?_⟩
  · rcases List.mem_cons.mp hd with rfl | hd
    · decide
    · rw [List.mem_singleton.mp hd]
      decide
  · exact Option.some.inj ((heval noAnswers l₁ h₁).symm.trans (by decide))
  · exact Option.some.inj ((heval selfAnswer l₂ h₂).symm.trans (by decide))

end Privatization
