import Privatization.Proofs.Classification.Outcome
import Privatization.Proofs.Propagation.ClosedForm

/-!
# Copies in and out

What a loop reads from before it, and what is read after it, has to be copied into or out of private
copies. An access says so in its trait, and nothing that happens to the trait afterwards takes it
back: meets keep it (`reads_meet`, `survives_meet`), every node on the way to the root lists one
memory around the accessed one (`Outcome.exists_around`), and a full dependence promises more than a
copy. So every report keeps the copy (`copies_reported`).
-/

namespace Privatization

namespace FlagSet

/-- Whether flow, anti and output are all reported. -/
def isFullDependence (c : Categories) : Bool := c.has .flow && c.has .anti && c.has .output

/-- Whether a report lets the value from before the loop be read: it is read in place or copied in,
and nothing private goes without the copy. -/
def keepsInput (c : Categories) : Bool :=
  (c.has .readonly || c.has .shared || c.has .firstPrivate || isFullDependence c)
    && !c.has .noAccess
    && (!(c.has .private_ || c.has .lastPrivate || c.has .secondToLastPrivate
        || c.has .dynamicPrivate)
      || c.has .firstPrivate)

/-- Whether a report lets a written value be read after the loop: it is written in place or copied
out, and nothing is reported that would lose it. -/
def keepsOutput (c : Categories) : Bool :=
  (c.has .lastPrivate || c.has .secondToLastPrivate || c.has .dynamicPrivate || c.has .shared
      || isFullDependence c)
    && !c.has .noAccess && !c.has .readonly && !c.has .private_
    && (!c.has .firstPrivate
      || (c.has .lastPrivate || c.has .secondToLastPrivate || c.has .dynamicPrivate))

/-- The mark of an explicit access has no part in either. -/
theorem keeps_sdiff_explicit (c : Categories) :
    keepsInput (c \ {.explicitAccess}) = keepsInput c
      ∧ keepsOutput (c \ {.explicitAccess}) = keepsOutput c := by
  have hmark (a : Category) (ha : a ≠ .explicitAccess) := has_sdiff_explicit c ha
  unfold keepsInput keepsOutput isFullDependence
  constructor
  · rw [hmark .readonly (by decide), hmark .shared (by decide), hmark .firstPrivate (by decide),
      hmark .noAccess (by decide), hmark .private_ (by decide), hmark .lastPrivate (by decide),
      hmark .secondToLastPrivate (by decide), hmark .dynamicPrivate (by decide),
      hmark .flow (by decide), hmark .anti (by decide), hmark .output (by decide)]
  · rw [hmark .readonly (by decide), hmark .shared (by decide), hmark .firstPrivate (by decide),
      hmark .noAccess (by decide), hmark .private_ (by decide), hmark .lastPrivate (by decide),
      hmark .secondToLastPrivate (by decide), hmark .dynamicPrivate (by decide),
      hmark .flow (by decide), hmark .anti (by decide), hmark .output (by decide)]

/-- A full dependence lets everything be read. -/
theorem keeps_toDependency (c : Categories) :
    keepsInput (toDependency c) = true ∧ keepsOutput (toDependency c) = true := by
  have hkept (a : Category) (hmarkers : Categories.markers.has a = false) :
      (toDependency c).has a = Categories.dependency.has a := by
    rw [has_toDependency, hmarkers, Bool.and_false, Bool.false_or]
  unfold keepsInput keepsOutput isFullDependence
  rw [hkept .readonly (by decide), hkept .shared (by decide), hkept .firstPrivate (by decide),
    hkept .noAccess (by decide), hkept .private_ (by decide), hkept .lastPrivate (by decide),
    hkept .secondToLastPrivate (by decide), hkept .dynamicPrivate (by decide),
    hkept .flow (by decide), hkept .anti (by decide), hkept .output (by decide)]
  decide

end FlagSet

namespace Trait

variable {v : Trait}

/-- A trait that says that memory is read is reported so. -/
theorem keepsInput_categories (h : v.isDependency = true ∨ v.reads = true) :
    FlagSet.keepsInput v.categories = true := by
  decide +revert

/-- A trait that says that a written value survives is reported so. -/
theorem keepsOutput_categories (h : v.isDependency = true ∨ v.survives = true) :
    FlagSet.keepsOutput v.categories = true := by
  decide +revert

end Trait

namespace Scope

variable {s : Scope} {l : Ledger} {d : DependenceMap} {n : AliasNodeId} {nt : NodeTrait}
  {mt : MemoryTrait} {em : EstimateId} {loc : MemoryLocation} {carried : Bool}

/-! ## What an access asks for -/

/-- An access that reads first says so, or is a dependence. -/
theorem reads_accessTrait (h : s.defUse.hasUse loc = true) :
    (s.accessTrait carried loc).isDependency = true ∨ (s.accessTrait carried loc).reads = true := by
  unfold accessTrait
  rw [h]
  cases carried && (s.defUse.hasMayDef loc || s.defUse.hasDef loc)
  · exact .inr rfl
  · exact .inl rfl

/-- An access that is written first and live after the loop says that a value survives. -/
theorem survives_accessTrait (h : s.defUse.hasUse loc = false)
    (hlive : s.live.overlaps loc = true) : (s.accessTrait carried loc).survives = true := by
  unfold accessTrait
  rw [h, hlive]
  cases carried <;> cases s.defUse.hasDef loc <;>
    cases s.latch.must.contains loc && !s.exit.may.overlaps loc <;> rfl

/-! ## What is reported -/

/-- The memory that stands for an accessed one keeps what the access asks for. -/
theorem Outcome.keeps (o : s.Outcome l n nt) (hmt : mt ∈ nt.memories)
    (hem : em ∈ l.explicit.keys) (hstands : s.standsFor n mt.memory em = true)
    (haccess : (s.accessTrait carried loc).meet (l.traitOf em) = l.traitOf em) :
    (s.defUse.hasUse loc = true → FlagSet.keepsInput mt.categories = true)
      ∧ (s.defUse.hasUse loc = false → s.live.overlaps loc = true →
        FlagSet.keepsOutput mt.categories = true) := by
  rcases o.categories mt hmt with ⟨hverdict, -⟩ | ⟨-, c, hc⟩
  · -- The access was met into the verdict, and a meet keeps what it asks for.
    have hmet : (s.accessTrait carried loc).meet (s.verdict l n mt.memory)
        = s.verdict l n mt.memory := by
      rw [← traitOf_meet_verdict hem hstands, ← Trait.meet_assoc, haccess]
    obtain ⟨hinput, houtput⟩ := FlagSet.keeps_sdiff_explicit mt.categories
    rw [hverdict, ← hmet] at hinput houtput
    constructor
    · intro huse
      rw [← hinput]
      exact Trait.keepsInput_categories (Trait.reads_meet _ (reads_accessTrait huse))
    · intro huse hlive
      rw [← houtput]
      exact Trait.keepsOutput_categories
        (Trait.survives_meet _ (.inr (survives_accessTrait huse hlive)))
  · rw [hc]
    exact ⟨fun _ => (FlagSet.keeps_toDependency c).1, fun _ _ => (FlagSet.keeps_toDependency c).2⟩

end Scope

variable {settings : Settings} {f : Function} {t : AliasTree} {loop : Loop}
  {depends : DependenceOracle} {modRef : ModRefOracle} {result : LoopResult} {defUse : DefUse}
  {live : LocationSet} {loc : MemoryLocation}

/-- Every node from the one of an accessed location up to the root reports exactly one memory
around it. Where the location is read before it is written, that report lets the value from
before the loop be read, and where it is written first and live after the loop, it lets the
written value be read. -/
theorem copies_reported (grown : t.Grown)
    (h : classifyLoop settings f t loop depends modRef = .ok result)
    (hdefUse : f.defUse.get? loop.id = some defUse) (hlive : f.live.get? loop.id = some live)
    (hloc : loc ∈ defUse.explicit) :
    ∃ e, t.find? loc = some e ∧ ∀ n, t.isNodeAncestor n (t.home e) = true →
      ∃ nt mt, result.traits.get? n = some nt
        ∧ nt.memories.filter (fun mt => t.isEstimateAncestor mt.memory e) = [mt]
        ∧ (defUse.hasUse loc = true → FlagSet.keepsInput mt.categories = true)
        ∧ (defUse.hasUse loc = false → live.overlaps loc = true →
          FlagSet.keepsOutput mt.categories = true) := by
  obtain ⟨s, d, l, st, rfl⟩ := classifyLoop_eq_ok.mp h
  obtain ⟨-, rfl, -, hsDefUse, hsLive⟩ := Scope.ofLoop_eq_ok st.scope
  obtain rfl : s.defUse = defUse := Option.some.inj (hsDefUse.symm.trans hdefUse)
  obtain rfl : s.live = live := Option.some.inj (hsLive.symm.trans hlive)
  have noted := Scope.noted_resolve st.ledger
  obtain ⟨e, he⟩ := Scope.find?_of_resolveAccesses (Scope.resolve_eq_ok st.ledger).1 hloc
  have hnamed : s.named e = true :=
    List.any_eq_true.mpr ⟨loc, hloc, Scope.locates_iff.mpr he⟩
  have hkey : e ∈ l.explicit.keys := (noted.keys e).mpr (.inl hnamed)
  have haccess : (s.accessTrait (d.contains e) loc).meet (l.traitOf e) = l.traitOf e := by
    rw [noted.trait]
    exact Scope.accessTrait_meet_resolvedTrait hloc he
  refine ⟨e, he, fun n hn => ?_⟩
  -- The accessed memory lives at or below `n`, so the node has a result.
  obtain ⟨hstored, houtcome⟩ := Scope.finish_outcome grown.wellFormed noted settings n
  obtain ⟨nt, hnt⟩ := Option.isSome_iff_exists.mp (hstored.mpr (.inl ⟨e, .inl hnamed, hn⟩))
  obtain ⟨mt, hmt, honly, hstands⟩ := (houtcome nt hnt).exists_around hkey hn
  exact ⟨nt, mt, hnt, honly, (houtcome nt hnt).keeps hmt hkey hstands haccess⟩

/-- One half read before it is written and the other live after the loop: reported as one object,
the halves keep both values. -/
theorem copies_reported_halves :
    ∃ result nt mt₁ mt₂, halvesTree.Grown ∧ classifyLoop {}
        (halvesFunction (.ofList [⟨⟨1⟩, some 4⟩]) (.ofList [⟨⟨2⟩, some 4⟩])) halvesTree twoBlocks
        (fun _ _ _ => none) (fun _ _ => .modRef) = .ok result
      ∧ result.traits.get? AliasTree.top = some nt
      ∧ nt.memories.filter (fun mt => halvesTree.isEstimateAncestor mt.memory ⟨1⟩) = [mt₁]
      ∧ nt.memories.filter (fun mt => halvesTree.isEstimateAncestor mt.memory ⟨2⟩) = [mt₂]
      ∧ FlagSet.keepsInput mt₁.categories = true ∧ FlagSet.keepsOutput mt₂.categories = true := by
  have grown : halvesTree.Grown := AliasTree.grown_ofAdditions _
  obtain ⟨result, hresult⟩ := exists_of_isOk
    (x := classifyLoop {} (halvesFunction (.ofList [⟨⟨1⟩, some 4⟩]) (.ofList [⟨⟨2⟩, some 4⟩]))
      halvesTree twoBlocks (fun _ _ _ => none) (fun _ _ => .modRef)) (by decide +kernel)
  have hlo : ⟨⟨1⟩, some 4⟩ ∈ halves := List.mem_cons_self
  have hhi : ⟨⟨2⟩, some 4⟩ ∈ halves := List.mem_cons_of_mem _ List.mem_cons_self
  obtain ⟨e₁, he₁, hfirst⟩ := copies_reported grown hresult rfl rfl hlo
  obtain ⟨e₂, he₂, hsecond⟩ := copies_reported grown hresult rfl rfl hhi
  obtain rfl : e₁ = ⟨1⟩ := Option.some.inj (he₁.symm.trans (by decide +kernel))
  obtain rfl : e₂ = ⟨2⟩ := Option.some.inj (he₂.symm.trans (by decide +kernel))
  obtain ⟨nt, mt₁, hnt, hmt₁, hinput, -⟩ := hfirst AliasTree.top (by decide +kernel)
  obtain ⟨nt', mt₂, hnt', hmt₂, -, houtput⟩ := hsecond AliasTree.top (by decide +kernel)
  obtain rfl : nt = nt' := Option.some.inj (hnt.symm.trans hnt')
  exact ⟨result, nt, mt₁, mt₂, grown, hresult, hnt, hmt₁, hmt₂, hinput (by decide +kernel),
    houtput (by decide +kernel) (by decide +kernel)⟩

end Privatization
