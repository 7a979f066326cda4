import Privatization.Proofs.Classification.Forcing
import Privatization.Proofs.Propagation.Recorded

/-!
# What the statistics count

A result is counted once: a memory where it is listed at the node of some tracked memory inside it,
and an unknown access at the node it was attributed to (`countedAt`). The counters are filled while
the propagation stores its results, so they count those results (`statistics_propagate`). Coverage
reclassifies some of them afterwards and leaves the counters alone, and what it reclassifies is
counted under the categories it had before (`counter_eq_countP_iff`).
-/

namespace Privatization

namespace Scope

variable {s : Scope} {l : Ledger} {d : DependenceMap} {n : AliasNodeId} {em m : EstimateId}
  {nt : NodeTrait}

/-! ## The results that are counted -/

/-- The memory the loop tracks: what it accesses by name, and objects whose address escapes. -/
def tracked (s : Scope) : List EstimateId :=
  s.defUse.explicit.filterMap s.tree.find?
    ++ s.defUse.addresses.filterMap fun ptr => (s.tree.find? ⟨ptr, some 0⟩).filter (s.exposes ptr)

/-- Whether a memory listed at a node lies around tracked memory of the very node. -/
def countsMemory (s : Scope) (n : AliasNodeId) (m : EstimateId) : Bool :=
  s.tracked.any fun em => s.tree.isEstimateAncestor m em && s.tree.home em == n

/-- Whether an unknown access was attributed to the node. -/
def countsUnknown (s : Scope) (n : AliasNodeId) (inst : InstId) : Bool :=
  s.tree.findUnknown? inst == some n

/-- The categories of what is counted at a node. -/
def countedAt (s : Scope) (nt : NodeTrait) : List Categories :=
  (nt.memories.filter fun mt => s.countsMemory nt.node mt.memory).map (·.categories)
    ++ (nt.unknowns.filter fun u => s.countsUnknown nt.node u.inst).map (·.categories)

/-- The categories of everything that is counted. -/
def counted (s : Scope) (traits : TraitMap) : List Categories := traits.values.flatMap s.countedAt

theorem mem_tracked : em ∈ s.tracked ↔ s.named em = true ∨ s.escapes em = true := by
  unfold tracked named escapes
  rw [List.mem_append, List.mem_filterMap, List.mem_filterMap, List.any_eq_true, List.any_eq_true]
  refine or_congr ?_ (exists_congr fun ptr => and_congr_right fun _ => ?_)
  · exact exists_congr fun loc => and_congr_right fun _ => locates_iff.symm
  · unfold leaks
    rw [Option.filter_eq_some_iff, Bool.and_eq_true, locates_iff]

/-- A head stands for memory of the very node exactly if it lies around it. -/
theorem counts_eq (hkeys : ∀ em, em ∈ l.explicit.keys ↔ s.named em = true ∨ s.escapes em = true)
    (hm : m ∈ s.heads l n) : s.counts l n m = s.countsMemory n m := by
  unfold counts countsMemory
  rw [Bool.eq_iff_iff, List.any_eq_true, List.any_eq_true]
  refine exists_congr fun em => ?_
  rw [Bool.and_eq_true, Bool.and_eq_true, beq_iff_eq, hkeys em, mem_tracked]
  refine and_congr_right fun htracked => and_congr_left fun hhome => ?_
  have hreach : s.reaches n em = true := by
    unfold reaches
    rw [hhome]
    exact AliasTree.isNodeAncestor_refl n
  exact standsFor_iff_around hm ((hkeys em).mpr htracked) hreach

/-! ## The counters after the propagation -/

/-- What is counted at a node is what its report lists for the first time. -/
theorem tallyAt_eq (hkeys : ∀ em, em ∈ l.explicit.keys ↔ s.named em = true ∨ s.escapes em = true)
    (hunknowns : ∀ x ∈ l.unknowns, s.tree.findUnknown? x.inst = some x.node)
    (h : s.IsReport l n nt) : s.tallyAt l n = ((s.countedAt nt).map (Statistics.tally · 1)).sum := by
  unfold countedAt
  rw [List.map_append, List.sum_append, List.map_map, List.map_map, Statistics.sum_map_filter,
    Statistics.sum_map_filter, (h.memories.map _).sum_eq, (h.unknowns.map _).sum_eq, List.map_map,
    List.map_map]
  unfold tallyAt nodeTally
  congr 2
  · refine List.map_congr_left fun m hm => ?_
    show Statistics.tally _ (if s.counts l n m then 1 else 0)
      = if s.countsMemory nt.node m then Statistics.tally (mark _ _) 1 else 0
    rw [Statistics.tally_ite, tally_mark, counts_eq hkeys (mem_listed.mp hm), h.node]
  · refine List.map_congr_left fun x hx => ?_
    show Statistics.tally _ (if x.node == n then 1 else 0)
      = if s.countsUnknown nt.node x.inst then Statistics.tally (mark _ _) 1 else 0
    have hat := hunknowns x (Array.mem_toList_iff.mp (List.mem_filter.mp hx).1)
    have hsame : s.countsUnknown n x.inst = (x.node == n) := by
      unfold countsUnknown
      rw [hat, Bool.eq_iff_iff, beq_iff_eq, beq_iff_eq, Option.some.injEq]
    rw [Statistics.tally_ite, tally_mark, h.node, hsame]

/-- The propagation counts what it stores. -/
theorem statistics_propagate (w : s.tree.WellFormed) (h : s.resolve { dependences := d } = .ok l) :
    (s.propagate l ∅).1.statistics
      = ((s.counted (s.propagate l ∅).2).map (Statistics.tally · 1)).sum := by
  have noted := noted_resolve h
  have q := queued_resolve h
  have hr := propagate_recorded w noted.fresh q
  have hunknowns (x : UnknownEntry) (hx : x ∈ l.unknowns) := noted.unknowns x hx
  -- Nodes without a result count nothing, and the others what is listed for the first time.
  have hnone (n : AliasNodeId) (hn : ¬s.occupied l n = true) : s.tallyAt l n = 0 := by
    unfold occupied at hn
    rw [Bool.not_eq_true, Bool.not_eq_false', Bool.and_eq_true, List.isEmpty_iff,
      List.isEmpty_iff] at hn
    unfold tallyAt nodeTally
    rw [hn.1, hn.2]
    rfl
  have hsum : (s.tree.postOrder.map (s.tallyAt l)).sum
      = ((s.propagate l ∅).2.keys.map (s.tallyAt l)).sum := by
    rw [hr.keys, Statistics.sum_map_filter]
    refine congrArg _ (List.map_congr_left fun n _ => ?_)
    split
    · rfl
    next hn => exact hnone n hn
  have hkeys : (s.propagate l ∅).2.keys.map (s.tallyAt l)
      = (s.propagate l ∅).2.values.map
        fun nt => ((s.countedAt nt).map (Statistics.tally · 1)).sum := by
    unfold OrderedMap.keys OrderedMap.values
    rw [List.map_map, List.map_map]
    refine List.map_congr_left fun p hp => ?_
    exact tallyAt_eq noted.keys hunknowns (hr.reports p.1 p.2 (OrderedMap.mem_toList_iff.mp hp))
  unfold counted
  rw [hr.statistics, q.statistics, hsum, hkeys, List.map_flatMap, List.flatMap_def,
    List.sum_flatten, List.map_map]
  exact zero_add _

end Scope

/-! ## What coverage does to the counts -/

namespace Statistics.Counter

theorem counts_toDependency (k : Counter) (c : Categories) :
    k.counts (FlagSet.toDependency c) = decide (k = dependency) := by
  cases k with
  | dependency =>
    show FlagSet.isDependency (FlagSet.toDependency c) = true
    rw [FlagSet.isDependency_eq, FlagSet.has_toDependency,
      show Categories.dependency.has .flow = true by decide, Bool.or_true, Bool.true_or,
      Bool.true_or]
  | _ =>
    show (FlagSet.toDependency c).has _ = false
    rw [FlagSet.has_toDependency, show Categories.markers.has _ = false by decide, Bool.and_false]
    decide

/-- Whether the counter tells what is reported under `c` from a full dependence. -/
def tellsApart (k : Counter) (c : Categories) : Bool :=
  k.counts c != k.counts (FlagSet.toDependency c)

theorem countP_toDependency_self (cs : List Categories) :
    (cs.map FlagSet.toDependency).countP dependency.counts
      = cs.countP dependency.counts + cs.countP dependency.tellsApart := by
  induction cs with
  | nil => rfl
  | cons c cs ih =>
    rw [List.map_cons, List.countP_cons, List.countP_cons, List.countP_cons, ih, tellsApart,
      counts_toDependency]
    cases dependency.counts c <;> simp <;> omega

theorem countP_toDependency_of_ne {k : Counter} (hk : k ≠ dependency) (cs : List Categories) :
    cs.countP k.counts = (cs.map FlagSet.toDependency).countP k.counts + cs.countP k.tellsApart := by
  induction cs with
  | nil => rfl
  | cons c cs ih =>
    rw [List.map_cons, List.countP_cons, List.countP_cons, List.countP_cons, ih, tellsApart,
      counts_toDependency, decide_eq_false hk]
    cases k.counts c <;> simp
    omega

end Statistics.Counter

namespace Scope

variable {s : Scope} {l : Ledger} {d : DependenceMap} {n : AliasNodeId} {nt : NodeTrait}

/-- Whether coverage makes a stored result a full dependence. -/
def reclassifies (s : Scope) (l : Ledger) (nt : NodeTrait) : Bool :=
  s.overruled l nt.node && !nt.categories.has .noAccess

/-- The categories that are reclassified after they were counted. -/
def reclassified (s : Scope) (l : Ledger) : List Categories :=
  ((s.propagate l ∅).2.values.filter (s.reclassifies l)).flatMap s.countedAt

/-- How many results a counter holds or lacks for categories they are not reported under. -/
def miscounted (s : Scope) (l : Ledger) (k : Statistics.Counter) : Nat :=
  (s.reclassified l).countP k.tellsApart

/-- The result for a stored one. -/
def afterCoverage (s : Scope) (l : Ledger) (nt : NodeTrait) : NodeTrait :=
  if s.overruled l nt.node then nt.forced else nt

theorem countedAt_afterCoverage (nt : NodeTrait) :
    s.countedAt (s.afterCoverage l nt) = if s.reclassifies l nt
      then (s.countedAt nt).map FlagSet.toDependency else s.countedAt nt := by
  unfold afterCoverage NodeTrait.forced reclassifies
  cases s.overruled l nt.node with
  | false => rfl
  | true =>
    cases nt.categories.has .noAccess with
    | true => rfl
    | false =>
      show s.countedAt nt.toDependency = _
      unfold countedAt NodeTrait.toDependency
      simp only [List.filter_map, List.map_map, List.map_append, Function.comp_def, if_true,
        Bool.not_false, Bool.and_self]

theorem values_finish (w : s.tree.WellFormed) (h : s.resolve { dependences := d } = .ok l)
    (settings : Settings) : (s.finish l settings).traits.values
      = (s.propagate l ∅).2.values.map (s.afterCoverage l) := by
  have noted := noted_resolve h
  have q := queued_resolve h
  have hr := propagate_recorded w noted.fresh q
  have hkeys : (s.finish l settings).traits.keys = (s.propagate l ∅).2.keys :=
    Ledger.keys_forceCovered _ _ _
  -- Coverage keeps the keys, so the results can be compared key by key.
  refine List.map_injective_iff.mpr (fun _ _ => Option.some.inj) ?_
  show (s.finish l settings).traits.values.map some = _
  rw [← OrderedMap.map_get?_keys, hkeys, List.map_map]
  unfold OrderedMap.keys OrderedMap.values
  rw [List.map_map, List.map_map]
  refine List.map_congr_left fun p hp => ?_
  have hget := OrderedMap.mem_toList_iff.mp hp
  show (s.finish l settings).traits.get? p.1 = some (s.afterCoverage l p.2)
  rw [get?_finish, hget, ← (hr.reports p.1 p.2 hget).node]
  rfl

/-- Coverage exchanges what is reclassified for full dependences, and keeps everything else. -/
theorem countP_finish (w : s.tree.WellFormed) (h : s.resolve { dependences := d } = .ok l)
    (settings : Settings) (k : Statistics.Counter) :
    (s.counted (s.finish l settings).traits).countP k.counts
        + (s.reclassified l).countP k.counts
      = (s.counted (s.propagate l ∅).2).countP k.counts
        + ((s.reclassified l).map FlagSet.toDependency).countP k.counts := by
  unfold reclassified counted
  rw [values_finish w h]
  generalize (s.propagate l ∅).2.values = stored
  induction stored with
  | nil => rfl
  | cons nt stored ih =>
    rw [List.map_cons, List.flatMap_cons, List.flatMap_cons, List.countP_append, List.countP_append,
      countedAt_afterCoverage, List.filter_cons]
    split
    · rw [List.flatMap_cons, List.map_append, List.countP_append, List.countP_append]
      omega
    · omega

/-- Full dependences are what was stored as a dependence and what was reclassified. -/
theorem countP_dependency_finish (w : s.tree.WellFormed)
    (h : s.resolve { dependences := d } = .ok l) (settings : Settings) :
    (s.counted (s.finish l settings).traits).countP Statistics.Counter.dependency.counts
      = (s.counted (s.propagate l ∅).2).countP Statistics.Counter.dependency.counts
        + s.miscounted l .dependency := by
  have hfinish := countP_finish w h settings .dependency
  rw [Statistics.Counter.countP_toDependency_self] at hfinish
  unfold miscounted
  omega

/-- Of every other category, what was reclassified is missing from the result. -/
theorem countP_finish_of_ne (w : s.tree.WellFormed) (h : s.resolve { dependences := d } = .ok l)
    (settings : Settings) {k : Statistics.Counter} (hk : k ≠ .dependency) :
    (s.counted (s.propagate l ∅).2).countP k.counts
      = (s.counted (s.finish l settings).traits).countP k.counts + s.miscounted l k := by
  have hfinish := countP_finish w h settings k
  have hreclassified := Statistics.Counter.countP_toDependency_of_ne hk (s.reclassified l)
  unfold miscounted
  omega

/-- A counter counts the results as the propagation stores them. -/
theorem counter_finish (w : s.tree.WellFormed) (h : s.resolve { dependences := d } = .ok l)
    (settings : Settings) (hcollect : settings.collectStatistics = true) (k : Statistics.Counter) :
    k.of (s.finish l settings).statistics
      = .ofNat ((s.counted (s.propagate l ∅).2).countP k.counts) := by
  have hstatistics : (s.finish l settings).statistics = (s.propagate l ∅).1.statistics :=
    if_pos hcollect
  rw [hstatistics, statistics_propagate w h, Statistics.Counter.of_sum]

end Scope

variable {settings : Settings} {f : Function} {t : AliasTree} {loop : Loop}
  {depends : DependenceOracle} {modRef : ModRefOracle} {result : LoopResult}

/-- The counters of a classified loop count its results as the propagation stored them. So a counter
agrees with the result that is returned exactly if coverage reclassified none of what it counts, or
nothing else where it counts dependences, up to a multiple of what a word can hold. -/
theorem counter_eq_countP_iff (grown : t.Grown)
    (h : classifyLoop settings f t loop depends modRef = .ok result)
    (hcollect : settings.collectStatistics = true) :
    ∃ s d l, Stages settings f t loop depends modRef s d l ∧ ∀ k : Statistics.Counter,
      k.of result.statistics = .ofNat ((s.counted (s.propagate l ∅).2).countP k.counts)
        ∧ (k.of result.statistics = .ofNat ((s.counted result.traits).countP k.counts)
          ↔ 2 ^ 64 ∣ s.miscounted l k) := by
  obtain ⟨s, d, l, st, rfl⟩ := classifyLoop_eq_ok.mp h
  obtain ⟨-, rfl, -, -, -⟩ := Scope.ofLoop_eq_ok st.scope
  refine ⟨s, d, l, st, fun k => ?_⟩
  have hcounter := Scope.counter_finish grown.wellFormed st.ledger settings hcollect k
  refine ⟨hcounter, ?_⟩
  -- Two counts are the same word exactly if a word cannot hold their difference.
  rw [hcounter, ← UInt64.toNat_inj, UInt64.toNat_ofNat', UInt64.toNat_ofNat']
  by_cases hk : k = .dependency
  · subst hk
    have hcount := Scope.countP_dependency_finish grown.wellFormed st.ledger settings
    omega
  · have hcount := Scope.countP_finish_of_ne grown.wellFormed st.ledger settings hk
    omega

/-- The object and its part are both counted as shared. -/
theorem counter_eq_countP_iff_nested :
    ∃ result s d l, nestedTree.Grown ∧ nestedResult = .ok result
      ∧ Stages {} nestedFunction nestedTree twoBlocks (fun _ _ _ => none) nestedFunction.modRef s d l
      ∧ Statistics.Counter.shared.of result.statistics = 2
      ∧ (Statistics.Counter.shared.of result.statistics
          = .ofNat ((s.counted result.traits).countP Statistics.Counter.shared.counts)
        ↔ 2 ^ 64 ∣ s.miscounted l .shared) := by
  have grown : nestedTree.Grown := AliasTree.grown_ofAdditions _
  obtain ⟨result, hresult⟩ := exists_of_isOk (x := nestedResult) (by decide +kernel)
  obtain ⟨s, d, l, st, hcounters⟩ := counter_eq_countP_iff grown hresult rfl
  have hscope : Scope.ofLoop nestedFunction nestedTree twoBlocks = .ok nestedScope := rfl
  obtain rfl : s = nestedScope := Except.ok.inj (st.scope.symm.trans hscope)
  obtain ⟨hstored, hreturned⟩ := hcounters .shared
  have htwo := st.eval (fun l => (nestedScope.counted (nestedScope.propagate l ∅).2).countP
    Statistics.Counter.shared.counts) (a := 2) (by decide +kernel)
  exact ⟨result, nestedScope, d, l, grown, hresult, st, hstored.trans (congrArg _ htwo), hreturned⟩

theorem overruled_nestedTree {l : Ledger}
    (hpieces : ((nestedScope.propagate l ∅).1.explicitlyAccessed.filter fun em =>
      nestedTree.home em == ⟨1⟩) = [⟨0⟩])
    (hcontains : (nestedScope.propagate l ∅).2.contains ⟨1⟩ = true) {n : AliasNodeId}
    (hn : n ∈ nestedTree.nodeIds) : nestedScope.overruled l n = (n == ⟨2⟩) := by
  have hids : nestedTree.nodeIds = [⟨0⟩, ⟨1⟩, ⟨2⟩] := by decide +kernel
  rw [hids] at hn
  rcases List.mem_cons.mp hn with rfl | hn
  · exact Scope.overruled_top _ _
  rcases List.mem_cons.mp hn with rfl | hn
  · refine List.any_eq_false.mpr fun c hc hbelow => ?_
    obtain ⟨hnode, hkind⟩ := List.mem_filter.mp hc
    rw [Bool.and_eq_true, decide_eq_true_iff] at hbelow
    -- Around the node of the object there is only the root, which is no node of estimates.
    have htop : c = ⟨0⟩ := by
      have hc : ∀ c ∈ nestedTree.nodeIds, nestedTree.isNodeAncestor c ⟨1⟩ = true → c ≠ ⟨1⟩ →
          c = ⟨0⟩ := by decide +kernel
      exact hc c hnode hbelow.1 hbelow.2
    have hroot : (nestedTree.node? ⟨0⟩).any (·.kind == .estimate) = false := by decide +kernel
    rw [Bool.and_eq_true, Bool.and_eq_true] at hkind
    exact Bool.false_ne_true (hroot.symm.trans (htop ▸ hkind.1.1))
  · rw [List.mem_singleton.mp hn]
    have hcovered := coveredNodes_nestedTree hpieces hcontains
    exact List.any_eq_true.mpr ⟨⟨1⟩, hcovered, by decide +kernel⟩

/-- The part is reported as a dependence, and no dependence is counted. -/
theorem dependency_miscounted_nested :
    ∃ result s, nestedResult = .ok result
      ∧ Scope.ofLoop nestedFunction nestedTree twoBlocks = .ok s
      ∧ Statistics.Counter.dependency.of result.statistics = 0
      ∧ Statistics.Counter.dependency.of result.statistics
        ≠ .ofNat ((s.counted result.traits).countP Statistics.Counter.dependency.counts) := by
  have grown : nestedTree.Grown := AliasTree.grown_ofAdditions _
  obtain ⟨result, hresult⟩ := exists_of_isOk (x := nestedResult) (by decide +kernel)
  obtain ⟨s, d, l, st, rfl⟩ := classifyLoop_eq_ok.mp hresult
  have hscope : Scope.ofLoop nestedFunction nestedTree twoBlocks = .ok nestedScope := rfl
  obtain rfl : s = nestedScope := Except.ok.inj (st.scope.symm.trans hscope)
  -- What the propagation leaves can be computed, and of coverage the nodes it overrules are known.
  have heval := st.eval (fun l =>
      ((nestedScope.propagate l ∅).1.explicitlyAccessed.filter fun em => nestedTree.home em == ⟨1⟩,
        (nestedScope.propagate l ∅).2.contains ⟨1⟩,
        (nestedScope.propagate l ∅).2.values.all fun nt => decide (nt.node ∈ nestedTree.nodeIds),
        (nestedScope.counted (nestedScope.propagate l ∅).2).countP
          Statistics.Counter.dependency.counts,
        (((nestedScope.propagate l ∅).2.values.filter fun nt =>
          nt.node == ⟨2⟩ && !nt.categories.has .noAccess).flatMap nestedScope.countedAt).countP
            Statistics.Counter.dependency.tellsApart))
    (a := ([⟨0⟩], true, true, 0, 1)) (by decide +kernel)
  simp only [Prod.mk.injEq] at heval
  obtain ⟨hpieces, hcontains, hnodes, hstored, hmiscounted⟩ := heval
  have hone : nestedScope.miscounted l .dependency = 1 := by
    rw [← hmiscounted]
    unfold Scope.miscounted Scope.reclassified
    congr 2
    refine List.filter_congr fun nt hnt => ?_
    unfold Scope.reclassifies
    rw [overruled_nestedTree hpieces hcontains
      (of_decide_eq_true (List.all_eq_true.mp hnodes nt hnt))]
  have hzero := Scope.counter_finish grown.wellFormed st.ledger {} rfl .dependency
  rw [hstored] at hzero
  refine ⟨_, nestedScope, hresult, hscope, hzero, ?_⟩
  rw [hzero, Scope.countP_dependency_finish grown.wellFormed st.ledger, hstored, hone]
  decide

end Privatization
