import Privatization.Proofs.Classification.Outcome
import Privatization.Proofs.Propagation.ClosedForm
import Privatization.Proofs.Resolution.Evidence

/-!
# Shared memory

When memory is reported as shared, and when that stands beside a recorded dependence on it. A single
access asks for sharing only where no dependence is recorded, but a meet keeps what one side asks
for: memory that stands for two pieces, one with and one without record, is shared although a
dependence on it was recorded. `shared_without_dependence_iff` says exactly when this does not
happen, and `shared_beside_dependence_halves` shows a loop where it does.
-/

namespace Privatization

namespace Trait

/-- Shared memory is reported as shared, and no other. -/
theorem has_shared_categories (v : Trait) : v.categories.has .shared = v.shares := by
  decide +revert

/-- Neither a copy from before the loop nor an escaping address matters for sharing. -/
theorem shares_meet_onlyIf (v : Trait) (b : Bool) :
    (v.meet (.onlyIf b .readonly)).shares = v.shares
      ∧ (v.meet (.onlyIf b .addressOnly)).shares = v.shares := by
  obtain ⟨access, address⟩ := v
  cases access with
  | dependency => cases b <;> exact ⟨rfl, rfl⟩
  | independent k r s => cases b <;> cases s <;> exact ⟨rfl, rfl⟩

theorem shares_of_isDependency {v : Trait} (h : v.isDependency = true) : v.shares = false := by
  obtain ⟨access, address⟩ := v
  cases access with
  | dependency => rfl
  | independent k r s => cases h

end Trait

namespace Scope

variable {s : Scope} {l : Ledger} {d : DependenceMap} {n : AliasNodeId} {nt : NodeTrait}
  {mt : MemoryTrait} {em m : EstimateId}

/-! ## What the passes share -/

/-- Only memory accessed by name is ever a dependence. -/
theorem named_of_isDependency (h : (s.resolvedTrait d em).isDependency = true) :
    s.named em = true := by
  rw [isDependency_resolvedTrait, Bool.or_eq_true] at h
  rcases h with h | h
  · unfold accessed Trait.meetOver at h
    rw [Trait.isDependency_meetAll, List.any_map, List.any_eq_true] at h
    obtain ⟨loc, hloc, -⟩ := h
    exact List.any_eq_true.mpr ⟨loc, List.mem_filter.mp hloc⟩
  · exact named_of_demoted h

/-- The passes share memory that is no dependence if a location of it is not read first and no
dependence on it is recorded. -/
theorem shares_resolvedTrait : (s.resolvedTrait d em).shares = true ↔
    (s.resolvedTrait d em).isDependency = false ∧ d.contains em = false
      ∧ ∃ loc ∈ s.defUse.explicit, s.tree.find? loc = some em ∧ s.defUse.hasUse loc = false := by
  cases hd : (s.resolvedTrait d em).isDependency with
  | true =>
    rw [Trait.shares_of_isDependency hd]
    exact ⟨fun h => (by cases h), fun h => (by cases h.1)⟩
  | false =>
    rw [isDependency_resolvedTrait, Bool.or_eq_false_iff] at hd
    have hnone := hd.1
    unfold accessed Trait.meetOver at hnone
    -- Neither a demotion that did not happen nor an escaping address changes what is shared.
    have hshares : (s.resolvedTrait d em).shares = (s.accessed d em).shares := by
      unfold resolvedTrait
      rw [(Trait.shares_meet_onlyIf _ _).2, hd.2]
      exact congrArg Trait.shares (Trait.meet_noAccess _)
    rw [hshares]
    unfold accessed Trait.meetOver
    rw [Trait.shares_meetAll_iff]
    constructor
    · rintro ⟨-, v, hv, hshares⟩
      obtain ⟨loc, hloc, rfl⟩ := List.mem_map.mp hv
      obtain ⟨hloc, hlocates⟩ := List.mem_filter.mp hloc
      rw [shares_accessTrait, Bool.and_eq_true, Bool.not_eq_true', Bool.not_eq_true'] at hshares
      exact ⟨rfl, hshares.2, loc, hloc, locates_iff.mp hlocates, hshares.1⟩
    · rintro ⟨-, hcarried, loc, hloc, hfind, huse⟩
      constructor
      · rw [Trait.isDependency_meetAll, List.any_eq_false] at hnone
        exact fun v hv => Bool.eq_false_iff.mpr (hnone v hv)
      · have hmem : loc ∈ s.defUse.explicit.filter (s.locates em) :=
          List.mem_filter.mpr ⟨hloc, locates_iff.mpr hfind⟩
        refine ⟨_, List.mem_map.mpr ⟨loc, hmem, rfl⟩, ?_⟩
        rw [shares_accessTrait, huse, hcarried]
        rfl

/-! ## What a report shares -/

/-- A listed memory is shared if nothing it stands for is a dependence and some of it is shared. -/
theorem shares_verdict : (s.verdict l n m).shares = true ↔
    (∀ em ∈ l.explicit.keys, s.standsFor n m em = true → (l.traitOf em).isDependency = false)
      ∧ ∃ em ∈ l.explicit.keys, s.standsFor n m em = true ∧ (l.traitOf em).shares = true := by
  have hevidence : (s.verdict l n m).shares = (s.evidence l n m).shares :=
    (Trait.shares_meet_onlyIf _ _).1
  rw [hevidence]
  unfold evidence Trait.meetOver
  rw [Trait.shares_meetAll_iff]
  constructor
  · rintro ⟨hnone, v, hv, hshares⟩
    constructor
    · intro em hem hstands
      exact hnone _ (List.mem_map.mpr ⟨em, List.mem_filter.mpr ⟨hem, hstands⟩, rfl⟩)
    · obtain ⟨em, hem, rfl⟩ := List.mem_map.mp hv
      obtain ⟨hem, hstands⟩ := List.mem_filter.mp hem
      exact ⟨em, hem, hstands, hshares⟩
  · rintro ⟨hnone, em, hem, hstands, hshares⟩
    constructor
    · intro v hv
      obtain ⟨e, he, rfl⟩ := List.mem_map.mp hv
      obtain ⟨he, hstands⟩ := List.mem_filter.mp he
      exact hnone e he hstands
    · exact ⟨_, List.mem_map.mpr ⟨em, List.mem_filter.mpr ⟨hem, hstands⟩, rfl⟩, hshares⟩

theorem Outcome.has_shared (o : s.Outcome l n nt) (hmt : mt ∈ nt.memories) :
    mt.categories.has .shared = true ↔
      s.overruled l n = false ∧ (s.verdict l n mt.memory).shares = true := by
  rcases o.categories mt hmt with ⟨hverdict, huntouched⟩ | ⟨hoverruled, c, hc⟩
  · have hhas (a : Category) (ha : a ≠ .explicitAccess) :
        mt.categories.has a = (s.verdict l n mt.memory).categories.has a := by
      rw [← hverdict, FlagSet.has_sdiff_explicit _ ha]
    rw [hhas .shared (by decide), ← Trait.has_shared_categories]
    refine ⟨fun h => ⟨Bool.eq_false_iff.mpr fun ho => ?_, h⟩, And.right⟩
    -- An overruled node that is left alone is untouched.
    have hno := huntouched ho
    rw [hhas .noAccess (by decide)] at hno
    rw [Trait.has_shared_of_noAccess hno] at h
    cases h
  · have hmarkers : Categories.markers.has .shared = false := by decide
    have hdependency : Categories.dependency.has .shared = false := by decide
    rw [hc, FlagSet.has_toDependency, hoverruled, hmarkers, hdependency, Bool.and_false]
    exact ⟨fun h => (by cases h), fun h => (by cases h.1)⟩

/-- A record is reported if a dependence on the memory or on a piece of it was recorded. -/
theorem dependenceOf_eq_none {t : AliasTree} : l.dependenceOf t m = none ↔
    ∀ piece ∈ l.dependences.keys, t.isEstimateAncestor m piece = false := by
  have hfilter : (l.dependences.toList.filter fun p => t.isEstimateAncestor m p.1) = []
      ↔ ∀ piece ∈ l.dependences.keys, t.isEstimateAncestor m piece = false := by
    rw [List.filter_eq_nil_iff]
    constructor
    · intro h piece hpiece
      obtain ⟨p, hp, rfl⟩ := List.mem_map.mp hpiece
      exact Bool.eq_false_iff.mpr (h p hp)
    · intro h p hp
      exact Bool.eq_false_iff.mp (h p.1 (List.mem_map.mpr ⟨p, hp, rfl⟩))
  rw [← hfilter]
  unfold Ledger.dependenceOf
  split
  next hnil => exact ⟨fun _ => hnil, fun _ => rfl⟩
  next hne => exact ⟨fun h => (by cases h), fun h => absurd h hne⟩

end Scope

variable {settings : Settings} {f : Function} {t : AliasTree} {loop : Loop}
  {depends : DependenceOracle} {modRef : ModRefOracle} {result : LoopResult}

/-- Exactly when a listed memory is not reported as shared beside a dependence on it: the node is
overruled for coverage, or some memory it stands for is a dependence itself, or whatever it stands
for that is written before it is read has a recorded dependence, or nothing is recorded on it or on
a piece of it. -/
theorem shared_without_dependence_iff (grown : t.Grown)
    (h : classifyLoop settings f t loop depends modRef = .ok result) :
    ∃ s d l, Stages settings f t loop depends modRef s d l ∧
      ∀ n nt mt, result.traits.get? n = some nt → mt ∈ nt.memories →
        ((mt.categories.has .shared = true → mt.dependence = none) ↔
          s.overruled l n = true
          ∨ (∃ em, s.named em = true ∧ s.standsFor n mt.memory em = true
              ∧ (s.resolvedTrait d em).isDependency = true)
          ∨ (∀ loc ∈ s.defUse.explicit, ∀ em, t.find? loc = some em →
              s.standsFor n mt.memory em = true → s.defUse.hasUse loc = false →
              d.contains em = true)
          ∨ ∀ piece ∈ d.keys, t.isEstimateAncestor mt.memory piece = false) := by
  obtain ⟨s, d, l, st, rfl⟩ := classifyLoop_eq_ok.mp h
  obtain ⟨-, rfl, -⟩ := Scope.ofLoop_eq_ok st.scope
  have noted := Scope.noted_resolve st.ledger
  refine ⟨s, d, l, st, fun n nt mt hnt hmt => ?_⟩
  have o := (Scope.finish_outcome grown.wellFormed noted settings n).2 nt hnt
  rw [o.has_shared hmt, o.dependence mt hmt, Scope.dependenceOf_eq_none, noted.dependences,
    Scope.shares_verdict]
  constructor
  · intro hclaim
    -- Without the first three exceptions the memory is shared, so there is no record.
    refine Classical.byContradiction fun hnone => ?_
    rw [not_or, not_or, not_or] at hnone
    obtain ⟨hoverruled, hdependency, hrecorded, hpieces⟩ := hnone
    simp only [Classical.not_forall] at hrecorded
    obtain ⟨loc, hloc, em, hfind, hstands, huse, hcarried⟩ := hrecorded
    have hkey : em ∈ l.explicit.keys := (noted.keys em).mpr
      (.inl (List.any_eq_true.mpr ⟨loc, hloc, Scope.locates_iff.mpr hfind⟩))
    have hfree (e : EstimateId) (hstands : s.standsFor n mt.memory e = true) :
        (s.resolvedTrait d e).isDependency = false :=
      Bool.eq_false_iff.mpr fun hd => hdependency ⟨e, Scope.named_of_isDependency hd, hstands, hd⟩
    refine hpieces (hclaim ⟨Bool.eq_false_iff.mpr hoverruled, fun e _ hstands => ?_, em, hkey,
      hstands, ?_⟩)
    · rw [noted.trait]
      exact hfree e hstands
    · rw [noted.trait, Scope.shares_resolvedTrait]
      exact ⟨hfree em hstands, Bool.eq_false_iff.mpr hcarried, loc, hloc, hfind, huse⟩
  · -- The location that makes the memory shared rules each of the first three exceptions out.
    rintro hexception ⟨hoverruled, hfree, em, hem, hstands, hshares⟩
    rw [noted.trait, Scope.shares_resolvedTrait] at hshares
    obtain ⟨-, hcarried, loc, hloc, hfind, huse⟩ := hshares
    rcases hexception with ho | ⟨e, hnamed, hstands, hd⟩ | hrecorded | hpieces
    · rw [ho] at hoverruled
      cases hoverruled
    · have := hfree e ((noted.keys e).mpr (.inl hnamed)) hstands
      rw [noted.trait, hd] at this
      cases this
    · have := hrecorded loc hloc em hfind hstands huse
      rw [hcarried] at this
      cases this
    · exact hpieces

/-- A dependence of the first of two instructions on itself. -/
def firstAnswer : DependenceOracle := fun src dst _ =>
  if src = ⟨0⟩ ∧ dst = ⟨0⟩ then some ⟨.output, [.all], []⟩ else none

/-- The result for the loop over the halves, where a dependence is recorded on one of them. -/
def halvesResult : Except ClassifyError LoopResult :=
  classifyLoop {} (halvesFunction ∅ ∅) halvesTree twoBlocks firstAnswer (halvesFunction ∅ ∅).modRef

theorem shared_without_dependence_iff_halves :
    ∃ result, halvesTree.Grown ∧ halvesResult = .ok result ∧
      ∃ s d l, Stages {} (halvesFunction ∅ ∅) halvesTree twoBlocks firstAnswer
        (halvesFunction ∅ ∅).modRef s d l ∧
        ∀ n nt mt, result.traits.get? n = some nt → mt ∈ nt.memories →
          ((mt.categories.has .shared = true → mt.dependence = none) ↔
            s.overruled l n = true
            ∨ (∃ em, s.named em = true ∧ s.standsFor n mt.memory em = true
                ∧ (s.resolvedTrait d em).isDependency = true)
            ∨ (∀ loc ∈ s.defUse.explicit, ∀ em, halvesTree.find? loc = some em →
                s.standsFor n mt.memory em = true → s.defUse.hasUse loc = false →
                d.contains em = true)
            ∨ ∀ piece ∈ d.keys, halvesTree.isEstimateAncestor mt.memory piece = false) := by
  have grown : halvesTree.Grown := AliasTree.grown_ofAdditions _
  obtain ⟨result, hresult⟩ := exists_of_isOk (x := halvesResult) (by decide +kernel)
  exact ⟨result, grown, hresult, shared_without_dependence_iff grown hresult⟩

/-- The object is reported as shared, and with it the dependence recorded on one half. -/
theorem shared_beside_dependence_halves :
    ∃ result nt mt, halvesResult = .ok result ∧ result.traits.get? AliasTree.top = some nt
      ∧ mt ∈ nt.memories ∧ mt.categories.has .shared = true ∧ mt.dependence ≠ none := by
  obtain ⟨result, hresult⟩ := exists_of_isOk (x := halvesResult) (by decide +kernel)
  obtain ⟨s, d, l, st, rfl⟩ := classifyLoop_eq_ok.mp hresult
  have hscope : Scope.ofLoop (halvesFunction ∅ ∅) halvesTree twoBlocks
      = .ok (halvesScope ∅ ∅) := rfl
  obtain rfl : s = halvesScope ∅ ∅ := Except.ok.inj (st.scope.symm.trans hscope)
  -- The ledger can be computed; what coverage leaves of the root follows from `finish_outcome`.
  have heval : (resolveLoop {} (halvesFunction ∅ ∅) halvesTree twoBlocks firstAnswer
      (halvesFunction ∅ ∅).modRef).toOption.map (fun l =>
        ((halvesScope ∅ ∅).heads l AliasTree.top,
          ((halvesScope ∅ ∅).verdict l AliasTree.top ⟨0⟩).shares,
          (l.dependenceOf halvesTree ⟨0⟩).isSome))
      = some ([⟨0⟩, ⟨0⟩], true, true) := by
    decide +kernel
  rw [resolveLoop_eq_ok.mpr ⟨_, d, st⟩] at heval
  have heval := Option.some.inj heval
  rw [Prod.mk.injEq, Prod.mk.injEq] at heval
  obtain ⟨hheads, hshares, hdependence⟩ := heval
  have grown : halvesTree.Grown := AliasTree.grown_ofAdditions _
  have noted := Scope.noted_resolve st.ledger
  obtain ⟨hstored, houtcome⟩ :=
    Scope.finish_outcome (s := halvesScope ∅ ∅) grown.wellFormed noted {} AliasTree.top
  have hnamed : (halvesScope ∅ ∅).named ⟨1⟩ = true := by decide +kernel
  have hreach : (halvesScope ∅ ∅).reaches AliasTree.top ⟨1⟩ = true := by decide +kernel
  obtain ⟨nt, hnt⟩ := Option.isSome_iff_exists.mp (hstored.mpr (.inl ⟨⟨1⟩, .inl hnamed, hreach⟩))
  have o := houtcome nt hnt
  obtain ⟨mt, hmt, hmemory⟩ := List.mem_map.mp
    ((o.heads ⟨0⟩).mpr (by rw [hheads]; exact List.mem_cons_self))
  refine ⟨_, nt, mt, hresult, hnt, hmt, (o.has_shared hmt).mpr ⟨Scope.overruled_top _ _, ?_⟩, ?_⟩
  · rw [hmemory]
    exact hshares
  · rw [o.dependence mt hmt, hmemory]
    intro hnone
    rw [show (halvesScope ∅ ∅).tree = halvesTree from rfl] at hnone
    rw [hnone] at hdependence
    cases hdependence

end Privatization
