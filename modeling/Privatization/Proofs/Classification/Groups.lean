import Mathlib.Data.List.Nodup
import Privatization.Proofs.Classification.Counting
import Privatization.Proofs.Classification.Covering
import Privatization.Proofs.Classification.Order

/-!
# What is counted once

The statistics of a loop without following any entry. The memory a loop tracks falls into groups,
one for each node and each coarsest memory of the node around some of it (`groups`). An entry is
decoded at every node it passes on its way to the root, may be moved to memory of another node and
may be folded with others, but it is counted only where it stands for tracked memory of the very
node, and there it stands for its group and for no other (`counts_iff_mem_groups`). So the
propagation counts every group once, under the value it has at its node, and every unknown access
once (`statistics_eq_sum`); `counters_of_groups` reads this counter by counter.
-/

namespace Privatization

/-! ## Counters of values -/

namespace Trait

/-- The counter for memory of a value. Untouched memory has none. -/
def counter? (v : Trait) : Option Statistics.Counter :=
  match v.access with
  | .dependency => some .dependency
  | .independent _ _ true => some .shared
  | .independent .unwritten false false => none
  | .independent .unwritten true false => some .readonly
  | .independent .dead false false => some .private_
  | .independent .dead true false => some .firstPrivate
  | .independent .secondToLast _ false => some .secondToLastPrivate
  | .independent .last _ false => some .lastPrivate
  | .independent .dynamic _ false => some .dynamicPrivate

/-- Whether a value that survives the loop is copied in besides. -/
def copiesInBesides (v : Trait) : Bool :=
  match v.access with
  | .independent .secondToLast true false | .independent .last true false
  | .independent .dynamic true false => true
  | _ => false

theorem counter?_eq_none {v : Trait} : v.counter? = none ↔ v.is .noAccess = true := by
  decide +revert

theorem copiesInBesides_of_counter? {v : Trait} (h : v.counter? = some .firstPrivate) :
    v.copiesInBesides = false := by
  decide +revert

/-- A counter counts what it is for, and the one for copies those made besides. -/
theorem counts_categories (k : Statistics.Counter) (v : Trait) : k.counts v.categories
    = (decide (v.counter? = some k) || (decide (k = .firstPrivate) && v.copiesInBesides)) := by
  cases k <;> decide +revert

/-- How many of a list of values a counter counts. -/
theorem countP_counts {α : Type} (k : Statistics.Counter) (value : α → Trait) (as : List α) :
    (as.map fun a => (value a).categories).countP k.counts
      = as.countP (fun a => decide ((value a).counter? = some k))
        + if k = .firstPrivate then as.countP fun a => (value a).copiesInBesides else 0 := by
  have hcounts : (fun c => k.counts c) ∘ (fun a => (value a).categories) = fun a =>
      (decide ((value a).counter? = some k)
        || (decide (k = .firstPrivate) && (value a).copiesInBesides)) :=
    funext fun a => counts_categories k (value a)
  rw [List.countP_map, hcounts, countP_or]
  · congr 1
    by_cases hk : k = .firstPrivate
    · simp only [if_pos hk, decide_eq_true hk, Bool.true_and]
    · simp only [if_neg hk, decide_eq_false hk, Bool.false_and, List.countP_false,
        Function.const_apply]
  · intro a ha
    rw [decide_eq_true_iff] at ha
    cases hk : decide (k = Statistics.Counter.firstPrivate) with
    | false => rfl
    | true => rw [copiesInBesides_of_counter? (of_decide_eq_true hk ▸ ha), Bool.and_false]

end Trait

namespace Scope

variable {s : Scope} {l : Ledger} {d : DependenceMap} {n : AliasNodeId} {em m : EstimateId}

/-! ## Groups -/

/-- The node of a memory and the coarsest memory of that node around it. -/
def groupOf (s : Scope) (em : EstimateId) : AliasNodeId × EstimateId :=
  (s.tree.home em, s.tree.outermostIn (s.tree.home em) em)

/-- Whether a memory is the topmost of the memories of a node around tracked memory of the node. -/
def IsGroup (s : Scope) (n : AliasNodeId) (m : EstimateId) : Prop :=
  ∃ em ∈ s.tracked, s.tree.home em = n ∧ s.tree.isEstimateAncestor m em = true
    ∧ s.tree.home m = n ∧ ∀ a, s.tree.isEstimateAncestor a em = true → s.tree.home a = n →
      s.tree.isEstimateAncestor m a = true

/-- The groups of the memory a loop tracks. -/
def groups (s : Scope) : List (AliasNodeId × EstimateId) := (s.tracked.map s.groupOf).dedup

/-- The listed memories, each with the node it is listed at. -/
def listings (s : Scope) (l : Ledger) : List (AliasNodeId × EstimateId) :=
  s.tree.postOrder.flatMap fun n => (s.listed l n).map fun m => (n, m)

/-- The counter for an unknown access. -/
def unknownCounter (s : Scope) (inst : InstId) : Statistics.Counter :=
  if (s.function.instruction? inst).any (·.isReadOnlyEffect) then .readonly else .dependency

theorem mem_groups (w : s.tree.WellFormed) : (n, m) ∈ s.groups ↔ s.IsGroup n m := by
  unfold groups IsGroup
  rw [List.mem_dedup, List.mem_map]
  refine exists_congr fun em => and_congr_right fun _ => ?_
  unfold groupOf
  rw [Prod.mk.injEq]
  refine and_congr_right_iff.mpr ?_
  rintro rfl
  obtain ⟨hanc, hhome, houter⟩ := AliasTree.outermostIn_spec (t := s.tree) (e := em) rfl
  -- Of two memories of the node around `em`, the coarsest one is the outer one.
  have htop (a : EstimateId) (ha : s.tree.isEstimateAncestor a em = true)
      (hah : s.tree.home a = s.tree.home em) : s.tree.isEstimateAncestor
        (s.tree.outermostIn (s.tree.home em) em) a = true := by
    rcases AliasTree.isEstimateAncestor_chain ha hanc with h | h
    · rw [w.eq_of_outermost h hah hhome houter]
      exact AliasTree.isEstimateAncestor_refl _
    · exact h
  constructor
  · rintro rfl
    exact ⟨hanc, hhome, htop⟩
  · rintro ⟨hm, hmh, hmtop⟩
    exact AliasTree.isEstimateAncestor_antisymm (htop m hm hmh) (hmtop _ hanc hhome)

theorem mem_listings : (n, m) ∈ s.listings l ↔ n ∈ s.tree.postOrder ∧ m ∈ s.heads l n := by
  unfold listings
  rw [← mem_listed, List.mem_flatMap]
  constructor
  · rintro ⟨n', hn', hm⟩
    obtain ⟨m', hm', heq⟩ := List.mem_map.mp hm
    obtain ⟨rfl, rfl⟩ := Prod.mk.inj heq
    exact ⟨hn', hm'⟩
  · rintro ⟨hn, hm⟩
    exact ⟨n, hn, List.mem_map.mpr ⟨m, hm, rfl⟩⟩

theorem listings_nodup (w : s.tree.WellFormed) : (s.listings l).Nodup := by
  refine List.nodup_flatMap.mpr ⟨fun n _ => ?_, w.postOrder_nodup.imp fun hne => ?_⟩
  · exact (List.nodup_dedup _).map fun _ _ h => (Prod.mk.inj h).2
  · intro g hg hg'
    obtain ⟨m, -, rfl⟩ := List.mem_map.mp hg
    obtain ⟨m', -, heq⟩ := List.mem_map.mp hg'
    exact hne (Prod.mk.inj heq).1.symm

section Noted

variable (w : s.tree.WellFormed)
  (hkeys : ∀ em, em ∈ l.explicit.keys ↔ s.named em = true ∨ s.escapes em = true)

include w hkeys

/-- What is counted at a node is a group of the node, and every group is counted at its node. -/
theorem counts_iff_mem_groups :
    (m ∈ s.heads l n ∧ s.counts l n m = true) ↔ (n, m) ∈ s.groups := by
  have hlow {e : EstimateId} (he : e ∈ s.lifted l n) :
      s.tree.isNodeAncestor n (s.tree.home e) = true := by
    obtain ⟨e₀, -, hreach, rfl⟩ := mem_lifted.mp he
    exact AliasTree.liftTo_home hreach
  -- What is lifted to `n` and lies around memory of `n` is memory of `n` itself.
  have hhome {e a : EstimateId} (he : e ∈ s.lifted l n)
      (ha : s.tree.isEstimateAncestor e a = true) (hn : s.tree.home a = n) :
      s.tree.home e = n := by
    have hhigh := w.home_ancestor ha
    rw [hn] at hhigh
    exact AliasTree.isNodeAncestor_antisymm hhigh (hlow he)
  unfold groups
  rw [List.mem_dedup, List.mem_map]
  constructor
  · rintro ⟨hm, hcounts⟩
    obtain ⟨em, hkey, hem⟩ := List.any_eq_true.mp hcounts
    rw [Bool.and_eq_true, beq_iff_eq, standsFor_iff] at hem
    obtain ⟨⟨-, hanc⟩, rfl⟩ := hem
    rw [AliasTree.liftTo_of_home rfl, AliasTree.settle_of_home rfl] at hanc
    obtain ⟨-, houth, houter⟩ := AliasTree.outermostIn_spec (t := s.tree) (e := em) rfl
    have heq := w.eq_of_outermost hanc (hhome (mem_heads.mp hm).1 hanc houth) houth houter
    exact ⟨em, mem_tracked.mpr ((hkeys em).mp hkey), Prod.ext rfl heq.symm⟩
  · rintro ⟨em, htracked, hgroup⟩
    obtain ⟨rfl, rfl⟩ := Prod.mk.inj hgroup
    have hkey := (hkeys em).mpr (mem_tracked.mp htracked)
    have hreach : s.reaches (s.tree.home em) em = true := AliasTree.isNodeAncestor_refl _
    have hlift : s.tree.liftTo (s.tree.home em) em = s.tree.outermostIn (s.tree.home em) em := by
      rw [AliasTree.liftTo_of_home rfl, AliasTree.settle_of_home rfl]
    obtain ⟨-, houth, houter⟩ := AliasTree.outermostIn_spec (t := s.tree) (e := em) rfl
    constructor
    · refine mem_heads.mpr ⟨mem_lifted.mpr ⟨em, hkey, hreach, hlift⟩, fun m' hm' hanc => ?_⟩
      exact w.eq_of_outermost hanc (hhome hm' hanc houth) houth houter
    · refine List.any_eq_true.mpr ⟨em, hkey, ?_⟩
      rw [Bool.and_eq_true, beq_iff_eq, standsFor_iff, hlift]
      exact ⟨⟨hreach, AliasTree.isEstimateAncestor_refl _⟩, rfl⟩

/-- What is counted of the listed memories are the groups. -/
theorem listings_perm_groups :
    ((s.listings l).filter fun g => s.counts l g.1 g.2).Perm s.groups := by
  refine (List.perm_ext_iff_of_nodup ((listings_nodup w).filter _) (List.nodup_dedup _)).mpr
    fun ⟨n, m⟩ => Iff.trans ?_ (counts_iff_mem_groups w hkeys)
  rw [List.mem_filter, mem_listings]
  refine and_congr_left fun hcounts => and_iff_right_of_imp fun _ => ?_
  -- A node where something is counted is the node of some memory.
  obtain ⟨em, -, hem⟩ := List.any_eq_true.mp hcounts
  rw [Bool.and_eq_true, beq_iff_eq] at hem
  have hn : s.tree.home em = n := hem.2
  exact w.mem_postOrder.mpr (hn ▸ w.home_lt em)

theorem sum_memoryTally : (s.tree.postOrder.map fun n =>
      ((s.listed l n).map (s.memoryTally l n)).sum).sum
    = (s.groups.map fun g => Statistics.tally (s.verdict l g.1 g.2).categories 1).sum := by
  let tallied (g : AliasNodeId × EstimateId) : Statistics :=
    .tally (s.verdict l g.1 g.2).categories 1
  have hmap (n : AliasNodeId) : (s.listed l n).map (s.memoryTally l n)
      = ((s.listed l n).map fun m => (n, m)).map
        fun g => if s.counts l g.1 g.2 then tallied g else 0 := by
    rw [List.map_map]
    exact List.map_congr_left fun m _ => Statistics.tally_ite _ _
  have hflat : (s.tree.postOrder.map fun n => ((s.listed l n).map (s.memoryTally l n)).sum).sum
      = ((s.listings l).map fun g => if s.counts l g.1 g.2 then tallied g else 0).sum := by
    unfold listings
    rw [List.map_flatMap, List.flatMap_def, List.sum_flatten, List.map_map]
    exact congrArg _ (List.map_congr_left fun n _ => congrArg List.sum (hmap n))
  rw [hflat, ← Statistics.sum_map_filter, ((listings_perm_groups w hkeys).map tallied).sum_eq]

end Noted

/-- What is counted of the unknown accesses, over all nodes, is each of them. -/
theorem sum_unknownTally (w : s.tree.WellFormed)
    (hnodes : ∀ x ∈ l.unknowns.toList, x.node ∈ s.tree.postOrder) :
    (s.tree.postOrder.map fun n => ((s.unknownsBelow l n).map (unknownTally n)).sum).sum
      = (l.unknowns.toList.map fun x => Statistics.tally x.value.categories 1).sum := by
  let tallied (x : UnknownEntry) : Statistics := .tally x.value.categories 1
  -- A node counts the unknown accesses at or below it, but only those that were made at the node
  -- itself.
  have heach (n : AliasNodeId) : ((s.unknownsBelow l n).map (unknownTally n)).sum
      = ((l.unknowns.toList.filter fun x => x.node == n).map tallied).sum := by
    have hown : (s.unknownsBelow l n).filter (fun x => x.node == n)
        = l.unknowns.toList.filter fun x => x.node == n := by
      unfold unknownsBelow
      rw [List.filter_filter]
      refine List.filter_congr fun x _ => ?_
      cases hx : x.node == n with
      | false => rfl
      | true =>
        rw [beq_iff_eq.mp hx, AliasTree.isNodeAncestor_refl]
        rfl
    rw [← hown, Statistics.sum_map_filter]
    exact congrArg _ (List.map_congr_left fun x _ => Statistics.tally_ite _ _)
  -- Every unknown access is made at exactly one node.
  have hsplit : (s.tree.postOrder.flatMap fun n => l.unknowns.toList.filter fun x => x.node == n).Perm
      l.unknowns.toList := by
    have hapart : s.tree.postOrder.Pairwise fun c d => ∀ x : UnknownEntry,
        (x.node == c) = true → (x.node == d) = false := by
      refine w.postOrder_nodup.imp fun hne x hx => ?_
      rw [beq_iff_eq] at hx
      rw [beq_eq_false_iff_ne, hx]
      exact hne
    refine (filter_any_perm hapart).symm.trans (.of_eq (List.filter_eq_self.mpr fun x hx => ?_))
    exact List.any_eq_true.mpr ⟨x.node, hnodes x hx, beq_self_eq_true _⟩
  rw [funext heach, ← (hsplit.map tallied).sum_eq, List.map_flatMap, List.flatMap_def,
    List.sum_flatten, List.map_map]
  rfl

/-- The propagation counts every group and every unknown access once. -/
theorem statistics_eq_sum (w : s.tree.WellFormed) (h : s.resolve { dependences := d } = .ok l) :
    (s.propagate l ∅).1.statistics
    = ((s.groups.map (fun g => (s.verdict l g.1 g.2).categories)
      ++ l.unknowns.toList.map fun x => x.value.categories).map (Statistics.tally · 1)).sum := by
  have noted := noted_resolve h
  have q := queued_resolve h
  have hnodes (x : UnknownEntry) (hx : x ∈ l.unknowns.toList) : x.node ∈ s.tree.postOrder :=
    w.mem_postOrder.mpr (noted.node_lt w (Array.mem_toList_iff.mp hx))
  rw [(propagate_recorded w noted.fresh q).statistics, q.statistics, List.map_append,
    List.sum_append, List.map_map, List.map_map]
  refine (zero_add _).trans ?_
  have hmemories := sum_memoryTally w noted.keys
  have hunknowns := sum_unknownTally w hnodes
  unfold tallyAt nodeTally
  rw [List.sum_map_add, hmemories, hunknowns]
  rfl

/-- Every unknown access is tracked under the value that its instruction calls for. -/
theorem countP_unknowns (h : s.resolve { dependences := d } = .ok l) (p : Categories → Bool) :
    (l.unknowns.toList.map fun x => x.value.categories).countP p
      = s.defUse.unknowns.countP fun inst => p (s.unknownTrait inst).categories := by
  have hok : (s.resolve { dependences := d }).isOk = true := by rw [h]; rfl
  rw [isOk_resolve, Bool.and_eq_true, Bool.and_eq_true, List.all_eq_true, List.all_eq_true] at hok
  rw [List.countP_map, unknowns_resolve h, List.countP_filterMap]
  refine List.countP_congr fun inst hinst => ?_
  obtain ⟨node, hnode⟩ := Option.isSome_iff_exists.mp (hok.1.2 inst hinst)
  unfold unknownEntry?
  rw [hnode]
  rfl

theorem counts_unknownTrait (k : Statistics.Counter) (inst : InstId) :
    k.counts (s.unknownTrait inst).categories = decide (s.unknownCounter inst = k)
      ∧ (s.unknownTrait inst).categories.has .addressAccess = false := by
  unfold unknownTrait unknownCounter
  cases (s.function.instruction? inst).any (·.isReadOnlyEffect) with
  | true => cases k <;> decide
  | false => cases k <;> decide

/-- A group is listed at its node, under the verdict on it. -/
theorem exists_report_group (w : s.tree.WellFormed) (h : s.resolve { dependences := d } = .ok l)
    {g : AliasNodeId × EstimateId} (hg : g ∈ s.groups) :
    ∃ nt mt, (s.propagate l ∅).2.get? g.1 = some nt ∧ mt ∈ nt.memories ∧ mt.memory = g.2
      ∧ mt.categories \ {.explicitAccess} = (s.verdict l g.1 g.2).categories := by
  have noted := noted_resolve h
  have hm := ((counts_iff_mem_groups (n := g.1) (m := g.2) w noted.keys).mpr hg).1
  obtain ⟨em, hkey, hstands⟩ := exists_standsFor_of_mem_heads hm
  have hreported := propagate_reported w noted.fresh (fun x hx => noted.node_lt w hx) g.1
  obtain ⟨nt, hnt⟩ := Option.isSome_iff_exists.mp
    (hreported.stored.mpr (.inl ⟨em, hkey, (standsFor_iff.mp hstands).1⟩))
  have hlisted := hreported.listed nt hnt
  obtain ⟨mt, hmt, hmemory⟩ := List.mem_map.mp ((hlisted.heads g.2).mpr hm)
  exact ⟨nt, mt, hnt, hmt, hmemory, hmemory ▸ hlisted.verdict mt hmt⟩

end Scope

variable {settings : Settings} {f : Function} {t : AliasTree} {loop : Loop}
  {depends : DependenceOracle} {modRef : ModRefOracle} {result : LoopResult}

/-- The statistics of a classified loop, group by group, every group once. Each group is stored at
its node under its value there, adds one to the counter for that value if it is touched, one to the
counter of copies if a value that survives is copied in besides, and one to the escaping addresses
if its address escapes. Each unknown access adds one to its counter, and nothing else is counted, up
to what a word can hold. -/
theorem counters_of_groups (grown : t.Grown)
    (h : classifyLoop settings f t loop depends modRef = .ok result)
    (hcollect : settings.collectStatistics = true) :
    ∃ s d l, Stages settings f t loop depends modRef s d l
      ∧ s.groups.Nodup ∧ (∀ n m, (n, m) ∈ s.groups ↔ s.IsGroup n m)
      ∧ (∀ g ∈ s.groups,
        (∃ nt mt, (s.propagate l ∅).2.get? g.1 = some nt ∧ mt ∈ nt.memories ∧ mt.memory = g.2
          ∧ mt.categories \ {.explicitAccess} = (s.verdict l g.1 g.2).categories)
        ∧ ((s.verdict l g.1 g.2).counter? = none ↔ (s.verdict l g.1 g.2).is .noAccess = true))
      ∧ (∀ k : Statistics.Counter, k.of result.statistics = .ofNat
        (s.groups.countP (fun g => decide ((s.verdict l g.1 g.2).counter? = some k))
          + (if k = .firstPrivate
            then s.groups.countP fun g => (s.verdict l g.1 g.2).copiesInBesides else 0)
          + s.defUse.unknowns.countP fun inst => decide (s.unknownCounter inst = k)))
      ∧ result.statistics.addressAccess
        = .ofNat (s.groups.countP fun g => (s.verdict l g.1 g.2).addressAccess) := by
  obtain ⟨s, d, l, st, rfl⟩ := classifyLoop_eq_ok.mp h
  obtain ⟨-, rfl, -, -, -⟩ := Scope.ofLoop_eq_ok st.scope
  have w := grown.wellFormed
  have hstatistics : (s.finish l settings).statistics = (s.propagate l ∅).1.statistics :=
    if_pos hcollect
  -- The tallies of groups and unknown accesses add up to the statistics, and each counter is read
  -- off the sum.
  have hsum := hstatistics.trans (Scope.statistics_eq_sum w st.ledger)
  refine ⟨s, d, l, st, List.nodup_dedup _, fun n m => Scope.mem_groups w,
    fun g hg => ⟨?_, Trait.counter?_eq_none⟩, fun k => ?_, ?_⟩
  · exact Scope.exists_report_group w st.ledger hg
  · rw [hsum, Statistics.Counter.of_sum, List.countP_append, Trait.countP_counts,
      Scope.countP_unknowns st.ledger]
    simp only [(Scope.counts_unknownTrait k _).1]
  · rw [hsum, Statistics.addressAccess_sum, List.countP_append, List.countP_map,
      Scope.countP_unknowns st.ledger]
    -- Unknown accesses never count as escaping addresses.
    have hnone : (s.defUse.unknowns.countP fun inst =>
        (s.unknownTrait inst).categories.has .addressAccess) = 0 :=
      List.countP_eq_zero.mpr fun inst _ => by
        rw [(Scope.counts_unknownTrait .readonly inst).2]
        exact Bool.false_ne_true
    rw [hnone, Nat.add_zero]
    refine congrArg _ (List.countP_congr fun g _ => ?_)
    rw [Function.comp_apply, Trait.has_addressAccess]

/-- The halves of the object are one group, counted once as shared and once as an escaping
address. -/
theorem counters_of_groups_escapingHalf :
    ∃ result s d l, halvesTree.Grown ∧ escapingHalfResult = .ok result
      ∧ Stages {} escapingHalfFunction halvesTree twoBlocks (fun _ _ _ => none)
        escapingHalfFunction.modRef s d l
      ∧ s.tracked = [⟨1⟩, ⟨2⟩] ∧ s.groups = [(⟨1⟩, ⟨0⟩)]
      ∧ (s.verdict l ⟨1⟩ ⟨0⟩).counter? = some .shared
      ∧ Statistics.Counter.shared.of result.statistics = 1
      ∧ result.statistics.addressAccess = 1 := by
  have grown : halvesTree.Grown := AliasTree.grown_ofAdditions _
  obtain ⟨result, hresult⟩ := exists_of_isOk (x := escapingHalfResult) (by decide +kernel)
  obtain ⟨s, d, l, st, -, -, -, hcounters, haddress⟩ := counters_of_groups grown hresult rfl
  obtain rfl : s = escapingHalfScope := st.scope_eq rfl
  have hgroups : escapingHalfScope.groups = [(⟨1⟩, ⟨0⟩)] := by decide +kernel
  have heval := st.eval (fun l => ((escapingHalfScope.verdict l ⟨1⟩ ⟨0⟩).counter?,
    (escapingHalfScope.verdict l ⟨1⟩ ⟨0⟩).addressAccess)) (a := (some .shared, true))
    (by decide +kernel)
  obtain ⟨hcounter, hescapes⟩ := Prod.mk.inj heval
  have hshared := hcounters .shared
  rw [hgroups, List.countP_singleton, hcounter] at hshared
  rw [hgroups, List.countP_singleton, hescapes] at haddress
  exact ⟨result, escapingHalfScope, d, l, grown, hresult, st, by decide +kernel, hgroups, hcounter,
    hshared, haddress⟩

end Privatization
