import Privatization.Proofs.Alias.Cover
import Privatization.Proofs.Classification.Outcome
import Privatization.Proofs.Propagation.Recorded

/-!
# Ledgers that say the same

What the propagation stores is read off the ledger through the memory that was noted, the traits
found for it, the unknown accesses and the dependences. The order in which any of them came makes no
difference (`Ledger.Alike`): the closed form of two such ledgers is the same up to the order inside a
node (`IsReport.sameUpToOrder`), and coverage overrules the same nodes (`overruled_congr`), so the
results of a loop are too (`finish_sameUpToOrder`).
-/

namespace Privatization

/-- Two results for a node list the same in some order. -/
structure NodeTrait.SameUpToOrder (nt nt' : NodeTrait) : Prop where
  node : nt.node = nt'.node
  categories : nt.categories = nt'.categories
  memories : nt.memories.Perm nt'.memories
  unknowns : nt.unknowns.Perm nt'.unknowns

/-- Reclassifying both results leaves them the same up to order. -/
theorem NodeTrait.SameUpToOrder.forced {nt nt' : NodeTrait} (h : nt.SameUpToOrder nt') :
    nt.forced.SameUpToOrder nt'.forced := by
  unfold NodeTrait.forced
  rw [h.categories]
  split
  · exact h
  · exact ⟨h.node, congrArg FlagSet.toDependency h.categories, h.memories.map _, h.unknowns.map _⟩

/-- Two results of a loop list the same nodes in the same order, and at each node the same in some
order. -/
structure LoopResult.SameUpToOrder (first second : LoopResult) : Prop where
  nodes : first.traits.keys = second.traits.keys
  traits : ∀ n nt nt', first.traits.get? n = some nt → second.traits.get? n = some nt' →
    nt.SameUpToOrder nt'
  statistics : first.statistics = second.statistics

/-- Two ledgers say the same, in whatever order. -/
structure Ledger.Alike (l l' : Ledger) : Prop where
  keys : l.explicit.keys.Perm l'.explicit.keys
  traits : l.traitOf = l'.traitOf
  unknowns : l.unknowns.toList.Perm l'.unknowns.toList
  dependences : l.dependences = l'.dependences

namespace Scope

variable {s : Scope} {l l' : Ledger} {n : AliasNodeId}

/-! ## The closed form -/

section Congruence

variable (h : l.Alike l')

include h

/-- The same memory comes to the top of a node, whatever the order of the accesses. -/
theorem heads_perm (n : AliasNodeId) : (s.heads l n).Perm (s.heads l' n) := by
  have hlifted : (s.lifted l n).Perm (s.lifted l' n) := (h.keys.filter _).map _
  unfold heads
  simp only [hlifted.all_eq]
  exact hlifted.filter _

/-- The same memory is listed at a node, once each. -/
theorem listed_perm (n : AliasNodeId) : (s.listed l n).Perm (s.listed l' n) :=
  (heads_perm h n).dedup

/-- The same accesses of unknown memory are at or below a node. -/
theorem unknownsBelow_perm (n : AliasNodeId) :
    (s.unknownsBelow l n).Perm (s.unknownsBelow l' n) := h.unknowns.filter _

/-- What was found of a memory is met in any order. -/
theorem evidence_congr : s.evidence l = s.evidence l' := by
  funext n m
  unfold evidence
  rw [Trait.meetOver_perm h.keys, h.traits]

/-- The same copies are made on the way up. -/
theorem copied_congr : s.copied l = s.copied l' := by
  funext n em
  unfold copied copiedAt callsForCopy
  simp only [evidence_congr h, (heads_perm h _).any_eq]

/-- The same verdict is reached on every memory. -/
theorem verdict_congr : s.verdict l = s.verdict l' := by
  funext n m
  unfold verdict copies
  rw [evidence_congr h, copied_congr h, h.keys.any_eq]

/-- The same memory is marked as accessed by name. -/
theorem marks_congr : s.marks l = s.marks l' := by
  funext n m
  unfold marks
  rw [verdict_congr h, decide_eq_decide.mpr h.keys.mem_iff]

/-- With verdict, mark and dependence the same, every memory is reported in the same way. -/
theorem memoryReport_congr : s.memoryReport l = s.memoryReport l' := by
  funext n m
  unfold memoryReport Ledger.dependenceOf
  rw [marks_congr h, verdict_congr h, h.dependences]

/-- The same values come into a node from below. -/
theorem incoming_congr : s.incoming l = s.incoming l' := by
  funext n m
  unfold incoming copiedBelow
  rw [evidence_congr h, copied_congr h, h.keys.any_eq]

/-- A node that lists the same constituents is reported under the same categories. -/
theorem nodeCategories_congr : s.nodeCategories l = s.nodeCategories l' := by
  have hsummary : s.summaryOf l = s.summaryOf l' := by
    funext n ms us
    unfold summaryOf
    rw [incoming_congr h]
  funext n ms us
  unfold nodeCategories
  rw [memoryReport_congr h, marks_congr h, hsummary]

/-- Each node counts the same. -/
theorem tallyAt_congr : s.tallyAt l = s.tallyAt l' := by
  funext n
  have hmemory : s.memoryTally l n = s.memoryTally l' n := by
    funext m
    unfold memoryTally counts
    rw [verdict_congr h, h.keys.any_eq]
  unfold tallyAt
  rw [nodeTally_perm (listed_perm h n) (unknownsBelow_perm h n)]
  unfold nodeTally
  rw [hmemory]

/-- The same nodes have something to report. -/
theorem occupied_congr : s.occupied l = s.occupied l' := by
  funext n
  unfold occupied
  rw [(listed_perm h n).isEmpty_eq, (unknownsBelow_perm h n).isEmpty_eq]

/-- The results for a node are the same up to the order of what they list. -/
theorem IsReport.sameUpToOrder {nt nt' : NodeTrait} (r : s.IsReport l n nt)
    (r' : s.IsReport l' n nt') : nt.SameUpToOrder nt' where
  node := r.node.trans r'.node.symm
  categories := by
    rw [r.categories, r'.categories, nodeCategories_congr h]
    exact nodeCategories_perm (listed_perm h n) (unknownsBelow_perm h n)
  memories := by
    refine r.memories.trans (.trans ?_ r'.memories.symm)
    rw [memoryReport_congr h]
    exact (listed_perm h n).map _
  unknowns := r.unknowns.trans (((unknownsBelow_perm h n).map _).trans r'.unknowns.symm)

end Congruence

/-! ## The propagation -/

section Propagation

variable (h : l.Alike l') (w : s.tree.WellFormed) (f : l.Fresh s.tree) (f' : l'.Fresh s.tree)

include h w f f'

/-- In more than its address, the same memory was accessed by name. -/
theorem explicitlyAccessed_congr (em : EstimateId) :
    em ∈ (s.propagate l ∅).1.explicitlyAccessed
      ↔ em ∈ (s.propagate l' ∅).1.explicitlyAccessed := by
  rw [mem_explicitlyAccessed w f, mem_explicitlyAccessed w f', h.keys.mem_iff, verdict_congr h]
  simp only [(heads_perm h AliasTree.top).mem_iff]

variable (q : l.Queued) (q' : l'.Queued)

include q q'

/-- The same nodes have a result, in the same order. -/
theorem keys_propagate_congr : (s.propagate l ∅).2.keys = (s.propagate l' ∅).2.keys := by
  rw [(propagate_recorded w f q).keys, (propagate_recorded w f' q').keys, occupied_congr h]

/-- The same is counted over the whole tree. -/
theorem statistics_propagate_congr :
    (s.propagate l ∅).1.statistics = (s.propagate l' ∅).1.statistics := by
  rw [(propagate_recorded w f q).statistics, (propagate_recorded w f' q').statistics, q.statistics,
    q'.statistics, tallyAt_congr h]

/-- Coverage overrules the same nodes. -/
theorem overruled_congr : s.overruled l = s.overruled l' := by
  have hspanned (n : AliasNodeId) : s.tree.isSpanned (s.propagate l ∅).1.explicitlyAccessed n
      = s.tree.isSpanned (s.propagate l' ∅).1.explicitlyAccessed n := by
    have hpieces (em : EstimateId) :
        em ∈ (s.propagate l ∅).1.explicitlyAccessed.filter (fun em => s.tree.home em == n)
          ↔ em ∈ (s.propagate l' ∅).1.explicitlyAccessed.filter
            (fun em => s.tree.home em == n) := by
      rw [List.mem_filter, List.mem_filter, explicitlyAccessed_congr h w f f']
    unfold AliasTree.isSpanned
    simp only [AliasTree.covers_congr hpieces]
  have hcovered : (s.propagate l ∅).1.coveredNodes s.tree (s.propagate l ∅).2
      = (s.propagate l' ∅).1.coveredNodes s.tree (s.propagate l' ∅).2 := by
    unfold Ledger.coveredNodes OrderedMap.contains
    simp only [hspanned, keys_propagate_congr h w f f' q q']
  funext n
  unfold overruled Ledger.isBelowCovered
  rw [hcovered]

end Propagation

/-- The results of a loop are the same up to the order inside a node. -/
theorem finish_sameUpToOrder {d : DependenceMap} {named named' : EstimateId → Prop}
    {trait trait' : EstimateId → Trait} (h : l.Alike l') (w : s.tree.WellFormed)
    (noted : Noted s d named trait l) (noted' : Noted s d named' trait' l') (q : l.Queued)
    (q' : l'.Queued) (settings : Settings) :
    (s.finish l settings).SameUpToOrder (s.finish l' settings) := by
  have f := noted.fresh
  have f' := noted'.fresh
  constructor
  case nodes =>
    have hkeys (l : Ledger) : (s.finish l settings).traits.keys = (s.propagate l ∅).2.keys :=
      Ledger.keys_forceCovered _ _ _
    rw [hkeys, hkeys, keys_propagate_congr h w f f' q q']
  case traits =>
    intro n nt nt' hnt hnt'
    rw [get?_finish] at hnt
    rw [get?_finish, ← overruled_congr h w f f' q q'] at hnt'
    obtain ⟨stored, hstored, rfl⟩ := Option.map_eq_some_iff.mp hnt
    obtain ⟨stored', hstored', rfl⟩ := Option.map_eq_some_iff.mp hnt'
    have hsame := ((propagate_recorded w f q).reports n stored hstored).sameUpToOrder h
      ((propagate_recorded w f' q').reports n stored' hstored')
    -- Coverage treats the two results in the same way.
    cases s.overruled l n with
    | false => exact hsame
    | true => exact hsame.forced
  case statistics =>
    have hstatistics (l : Ledger) : (s.finish l settings).statistics
        = if settings.collectStatistics then (s.propagate l ∅).1.statistics else {} := rfl
    rw [hstatistics, hstatistics, statistics_propagate_congr h w f f' q q']

end Scope

end Privatization
