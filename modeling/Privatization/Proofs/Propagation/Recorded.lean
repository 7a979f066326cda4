import Mathlib.Data.List.Dedup
import Privatization.Proofs.Propagation.Reporting
import Privatization.Proofs.Propagation.Run
import Privatization.Proofs.Resolution.Unknowns

/-!
# The propagation in full

What the whole visit stores and counts, with nothing left open but the order inside a node: the
nodes with a result in the order they are visited, for each the report of the closed form
(`Reports`), and as statistics the sum of what was counted at each node (`propagate_recorded`). In
the end the group of a memory carries the verdict on the head that stands for it at the root
(`propagate_value`).
-/

namespace Privatization

instance AliasTree.decidableShare (t : AliasTree) (done : List AliasNodeId) (u x : AliasNodeId) :
    Decidable (t.share done u x) :=
  inferInstanceAs (Decidable (if u ∈ done then t.isNodeAncestor u x = true else x = u))

namespace Scope

variable {s : Scope} {l₀ lg l : Ledger} {n u : AliasNodeId} {done : List AliasNodeId}
  {traits : TraitMap} {ids : List EntryId} {ms ms' : List EstimateId} {us us' : List UnknownEntry}

/-! ## The closed form -/

/-- The memories listed at a node. -/
def listed (s : Scope) (l : Ledger) (n : AliasNodeId) : List EstimateId := (s.heads l n).dedup

/-- The unknown accesses listed at a node: those attributed at or below it. -/
def unknownsBelow (s : Scope) (l : Ledger) (n : AliasNodeId) : List UnknownEntry :=
  l.unknowns.toList.filter fun x => s.tree.isNodeAncestor n x.node

/-- Whether a node has a result. -/
def occupied (s : Scope) (l : Ledger) (n : AliasNodeId) : Bool :=
  !((s.listed l n).isEmpty && (s.unknownsBelow l n).isEmpty)

/-- What is counted for a node. -/
def tallyAt (s : Scope) (l : Ledger) (n : AliasNodeId) : Statistics :=
  s.nodeTally l n (s.listed l n) (s.unknownsBelow l n)

/-- `nt` is the result for a node, up to the order of what it lists. -/
structure IsReport (s : Scope) (l : Ledger) (n : AliasNodeId) (nt : NodeTrait) : Prop where
  node : nt.node = n
  categories : nt.categories = s.nodeCategories l n (s.listed l n) (s.unknownsBelow l n)
  memories : nt.memories.Perm ((s.listed l n).map (s.memoryReport l n))
  unknowns : nt.unknowns.Perm ((s.unknownsBelow l n).map (unknownReport n))

/-- What is listed at a node are its heads, without repetition. -/
theorem mem_listed {m : EstimateId} : m ∈ s.listed l n ↔ m ∈ s.heads l n := List.mem_dedup

/-! ### The order does not matter -/

/-- The summary of a node does not depend on the order of its constituents. -/
theorem summaryOf_perm (hms : ms.Perm ms') (hus : us.Perm us') :
    s.summaryOf l n ms us = s.summaryOf l n ms' us' := by
  unfold summaryOf
  rw [Trait.meetAll_perm (hms.map _), Trait.meetAll_perm (hus.map _)]

/-- The order of members does not change the categories a node is reported under. -/
theorem nodeCategories_perm (hms : ms.Perm ms') (hus : us.Perm us') :
    s.nodeCategories l n ms us = s.nodeCategories l n ms' us' := by
  by_cases hmixed : us ≠ [] ∨ 1 < ms.length
  · have hmixed' : us' ≠ [] ∨ 1 < ms'.length := by
      rw [← hms.length_eq]
      exact hmixed.imp_left fun hne heq => hne (List.Perm.eq_nil (heq ▸ hus))
    rw [nodeCategories_of_mixed (hmixed.imp_right Nat.ne_of_gt),
      nodeCategories_of_mixed (hmixed'.imp_right Nat.ne_of_gt), summaryOf_perm hms hus, hms.any_eq,
      hus.any_eq]
  · -- At most one memory is left, and one has no order.
    rw [not_or, Decidable.not_not] at hmixed
    obtain ⟨rfl, hone⟩ := hmixed
    obtain rfl : us' = [] := hus.symm.eq_nil
    match ms, hone with
    | [], _ => rw [hms.symm.eq_nil]
    | [m], _ => rw [List.perm_singleton.mp hms.symm]
    | m :: m' :: ms, hone => simp at hone

/-- The order of members does not change what is counted for a node. -/
theorem nodeTally_perm (hms : ms.Perm ms') (hus : us.Perm us') :
    s.nodeTally l n ms us = s.nodeTally l n ms' us' := by
  unfold nodeTally
  rw [(hms.map _).sum_eq, (hus.map _).sum_eq]

/-- The result made of the constituents in any order is a report of the closed form. -/
theorem isReport_nodeReport (hms : ms.Perm (s.listed l n)) (hus : us.Perm (s.unknownsBelow l n)) :
    s.IsReport l n (s.nodeReport l n ms us) :=
  ⟨rfl, nodeCategories_perm hms hus, hms.map _, hus.map _⟩

/-- The groups a node is left with stand at the memories the closed form lists. -/
theorem Gathered.memories_perm {place : EstimateId → EstimateId} {said : EstimateId → Trait}
    (g : Gathered s l₀ n lg ids place said) : (ids.filterMap lg.memory?).Perm (s.listed l₀ n) := by
  have hnodup := g.nodup_memories
  rw [g.map_memory?] at hnodup
  refine (List.perm_ext_iff_of_nodup hnodup.of_map (List.nodup_dedup _)).mpr fun m => ?_
  rw [List.mem_filterMap]
  exact g.mem_heads_iff.symm.trans mem_listed.symm

/-! ## Nothing is counted while groups are collected -/

theorem statistics_fold (l : Ledger) (source target : EntryId) :
    (l.fold source target).statistics = l.statistics := by
  unfold Ledger.fold
  dsimp only
  split <;> rfl

/-- Taking over an entry of a child counts nothing. -/
theorem statistics_collectEntry (acc : Ledger × List EntryId) (id : EntryId) :
    (s.collectEntry n acc id).1.statistics = acc.1.statistics := by
  unfold collectEntry
  dsimp only
  split
  · rfl
  · split
    · split
      · exact statistics_fold _ _ _
      · rfl
    · rfl

/-- Comparing a group with those kept counts nothing. -/
theorem statistics_absorb (id : EntryId) (em : EstimateId) (l : Ledger) (kept : List EntryId) :
    (s.absorb id em l kept).1.statistics = l.statistics := by
  fun_induction absorb s id em l kept with
  | case1 l => rfl
  | case2 l other rest hm l' rest' absorbed heq ih =>
    rw [heq] at ih
    exact ih
  | case3 l other rest otherEm hm hanc => exact statistics_fold _ _ _
  | case4 l other rest otherEm hm hout hanc ih => exact ih.trans (statistics_fold _ _ _)
  | case5 l other rest otherEm hm hout hout' l' rest' absorbed heq ih =>
    rw [heq] at ih
    exact ih

/-- Keeping or folding a group counts nothing. -/
theorem statistics_keep (acc : Ledger × List EntryId) (id : EntryId) :
    (s.keep acc id).1.statistics = acc.1.statistics := by
  unfold keep
  dsimp only
  split
  · rfl
  · split
    · rfl
    · exact statistics_absorb _ _ _ _

/-- Moving a group to a coarser memory counts nothing. -/
theorem statistics_generalize (l : Ledger) (id : EntryId) :
    (s.generalize n l id).statistics = l.statistics := by
  unfold generalize
  split
  · rfl
  · split <;> rfl

/-- A loop counts nothing if no step does. -/
theorem statistics_foldl {α β : Type} {f : β → α → β} (count : β → Statistics)
    (h : ∀ b a, count (f b a) = count b) (as : List α) (b : β) :
    count (as.foldl f b) = count b :=
  List.foldlRecOn (motive := fun b' => count b' = count b) as f rfl
    fun b' hb' a _ => (h b' a).trans hb'

/-- All that a node does before it stores its results counts nothing. -/
theorem statistics_foldedAt (s : Scope) (l : Ledger) (n : AliasNodeId) :
    (s.foldedAt l n).1.statistics = l.statistics := by
  obtain ⟨entries, unknowns, htaken⟩ := takenFrom_eq s l n
  let count (acc : Ledger × List EntryId) : Statistics := acc.1.statistics
  unfold foldedAt foldDuplicates
  refine (statistics_foldl count statistics_keep _ _).trans ?_
  refine (statistics_foldl Ledger.statistics statistics_generalize _ _).trans ?_
  refine (statistics_foldl count statistics_collectEntry _ _).trans ?_
  rw [htaken]
  rfl

/-! ## One more node -/

/-- Where the nodes `done` were visited, starting from the ledger `l₀`: what waits, what was stored
and what was counted. -/
structure Recorded (s : Scope) (l₀ : Ledger) (done : List AliasNodeId) (l : Ledger)
    (traits : TraitMap) : Prop where
  waiting : ∀ u, s.tree.Frontier done u → ((l.unknownsAt u).map l.unknown?).Perm
    ((l₀.unknowns.toList.filter fun x => decide (s.tree.share done u x.node)).map some)
  keys : traits.keys = done.filter (s.occupied l₀)
  reports : ∀ u nt, traits.get? u = some nt → s.IsReport l₀ u nt
  statistics : l.statistics = l₀.statistics + (done.map (s.tallyAt l₀)).sum

/-- Before the first node each unknown access waits where it was attributed, and nothing
is stored. -/
theorem Recorded.init (q : l₀.Queued) : Recorded s l₀ [] l₀ ∅ where
  waiting u _ := by
    rw [q.lists u]
    refine (List.Perm.of_eq (congrArg _ (List.filter_congr fun x _ => ?_)))
    rw [Bool.eq_iff_iff, beq_iff_eq, decide_eq_true_iff,
      AliasTree.share_of_not_mem List.not_mem_nil]
  keys := rfl
  reports u nt hnt := by cases hnt
  statistics := (add_zero _).symm

namespace Next

/-- What the node is left with once its groups are folded. Unknown accesses and dependences are not
touched until then. -/
theorem folded (h : Next s l₀ done n l traits) :
    ∃ place said, Gathered s l₀ n (s.foldedAt l n).1 (s.foldedAt l n).2 place said
      ∧ Ledger.Within (l.entriesAt n ++ s.queueAt l n) (s.takenFrom l n) (s.foldedAt l n).1
      ∧ (s.foldedAt l n).1.unknowns = l.unknowns
      ∧ (s.foldedAt l n).1.dependences = l₀.dependences := by
  obtain ⟨place, said, ha, hplaced⟩ := h.accounts
  obtain ⟨place', g, hw, -⟩ := h.gathered ha hplaced
  obtain ⟨entries, unknowns, htaken⟩ := takenFrom_eq s l n
  refine ⟨place', said, g, hw, ?_, ?_⟩
  · rw [hw.unknowns, htaken]
    rfl
  · rw [hw.dependences, htaken]
    exact h.dependences

/-- The unknown accesses the node takes over, one by one. -/
theorem unknownsFor_perm (h : Next s l₀ done n l traits) (hr : Recorded s l₀ done l traits) :
    ((s.unknownsFor l n).map l.unknown?).Perm ((s.unknownsBelow l₀ n).map some) := by
  have hlists (c : AliasNodeId) (hc : c ∈ n :: s.tree.nodeChildren n) :
      s.tree.Frontier done c := by
    rcases List.mem_cons.mp hc with rfl | hc
    · exact h.frontier
    · exact h.child_frontier hc
  have hnodup : (n :: s.tree.nodeChildren n).Nodup :=
    List.nodup_cons.mpr ⟨fun hn => h.child_ne hn rfl, AliasTree.nodeChildren_nodup n⟩
  -- The node and its children hold nothing in common.
  have hapart : (n :: s.tree.nodeChildren n).Pairwise fun c d => ∀ x : UnknownEntry,
      decide (s.tree.share done c x.node) = true → decide (s.tree.share done d x.node) = false := by
    refine hnodup.imp_of_mem fun hc hd hne x hx => ?_
    rw [decide_eq_true_iff] at hx
    exact decide_eq_false (h.closed.share_disjoint (hlists _ hc) (hlists _ hd) hne hx)
  have hbelow : s.unknownsBelow l₀ n = l₀.unknowns.toList.filter fun x =>
      (n :: s.tree.nodeChildren n).any fun c => decide (s.tree.share done c x.node) := by
    refine List.filter_congr fun x _ => ?_
    rw [Bool.eq_iff_iff, AliasTree.share_of_visit h.children h.around, List.any_cons,
      Bool.or_eq_true, List.any_eq_true]
    simp only [decide_eq_true_iff]
  rw [hbelow]
  refine List.Perm.trans ?_ ((filter_any_perm hapart).symm.map some)
  show (((n :: s.tree.nodeChildren n).flatMap l.unknownsAt).map l.unknown?).Perm _
  rw [List.map_flatMap, List.map_flatMap]
  exact List.Perm.flatMap_left _ fun c hc => hr.waiting c (hlists c hc)

/-- What waits at the frontier once the node is finished. -/
theorem finishNode_waiting (h : Next s l₀ done n l traits) (hr : Recorded s l₀ done l traits)
    (hu : s.tree.Frontier (done ++ [n]) u) :
    (((s.finishNode (l, traits) n).1.unknownsAt u).map (s.finishNode (l, traits) n).1.unknown?).Perm
      ((l₀.unknowns.toList.filter fun x => decide (s.tree.share (done ++ [n]) u x.node)).map some)
    := by
  obtain ⟨place, said, g, hw, hfolded, -⟩ := h.folded
  have st := storeResults_spec g.accounts g.gathers (n := n) (s.unknownsFor l n) traits
  have hunknowns := st.refines.within.unknowns.trans hfolded
  rw [h.finishNode_eq]
  generalize s.storeResults n _ _ _ traits = r at st hunknowns
  -- An entry of an unknown access means what it meant before, so only the lists matter.
  have hsame : (r.1.setNode n (s.foldedAt l n).2 (s.unknownsFor l n)).unknown? = l.unknown? := by
    unfold Ledger.unknown?
    exact funext fun x => congrArg (fun a : Array UnknownEntry => a[x.index]?) hunknowns
  show (List.map (Ledger.unknown? _) _).Perm _
  rw [hsame]
  by_cases hne : u = n
  · subst hne
    have hat : (r.1.setNode u (s.foldedAt l u).2 (s.unknownsFor l u)).unknownsAt u
        = s.unknownsFor l u := by
      show ((r.1.nodeUnknowns.insert u (s.unknownsFor l u)).get? u).getD [] = _
      rw [OrderedMap.get?_insert_self]
      rfl
    rw [hat]
    refine (h.unknownsFor_perm hr).trans (.of_eq (congrArg _ (List.filter_congr fun x _ => ?_)))
    rw [Bool.eq_iff_iff, decide_eq_true_iff, AliasTree.share_visit_self]
  · rw [(h.finished_lists hw st hu hne).2]
    refine (hr.waiting u (AliasTree.frontier_of_visit hu)).trans
      (.of_eq (congrArg _ (List.filter_congr fun x _ => ?_)))
    rw [Bool.eq_iff_iff, decide_eq_true_iff, decide_eq_true_iff, AliasTree.share_visit_of_ne hne]

/-- What is stored for the node and counted for it. -/
theorem finishNode_results (h : Next s l₀ done n l traits) (hr : Recorded s l₀ done l traits) :
    (s.finishNode (l, traits) n).1.statistics = l.statistics + s.tallyAt l₀ n
      ∧ ∃ nt, s.IsReport l₀ n nt
        ∧ (s.finishNode (l, traits) n).2
          = if s.occupied l₀ n then OrderedMap.insert traits n nt else traits := by
  obtain ⟨place, said, g, -, hunknowns, hdependences⟩ := h.folded
  -- What the node takes over are accesses that are tracked, and they are those of the closed form.
  obtain ⟨us, hus, hbelow⟩ :=
    (congrFun₂ (List.eq_map_comp_perm some) _ _).mpr (h.unknownsFor_perm hr)
  have hwaiting : (s.unknownsFor l n).map (s.foldedAt l n).1.unknown? = us.map some := by
    rw [← hus]
    unfold Ledger.unknown?
    rw [hunknowns]
  obtain ⟨hstatistics, htraits⟩ := g.storeResults_eq hdependences hwaiting traits
  have hmemories := g.memories_perm
  generalize (s.foldedAt l n).2.filterMap (s.foldedAt l n).1.memory? = ms at *
  -- There is nothing to store exactly if the closed form lists nothing.
  have hempty : ms = [] ∧ us = [] ↔ ¬s.occupied l₀ n = true := by
    unfold occupied
    rw [Bool.not_eq_true, Bool.not_eq_false', Bool.and_eq_true, List.isEmpty_iff, List.isEmpty_iff,
      ← List.length_eq_zero_iff, ← List.length_eq_zero_iff, hmemories.length_eq, hbelow.length_eq,
      List.length_eq_zero_iff, List.length_eq_zero_iff]
  rw [h.finishNode_eq]
  generalize s.storeResults n _ _ _ traits = r at hstatistics htraits
  refine ⟨?_, s.nodeReport l₀ n ms us, isReport_nodeReport hmemories hbelow, ?_⟩
  · show r.1.statistics = _
    rw [hstatistics, statistics_foldedAt, nodeTally_perm hmemories hbelow]
    rfl
  · show r.2 = _
    rw [htraits]
    by_cases hnone : ms = [] ∧ us = []
    · rw [if_pos hnone, if_neg (hempty.mp hnone)]
    · rw [if_neg hnone, if_pos (Decidable.not_not.mp (mt hempty.mpr hnone))]
      rfl

/-- Visiting a node records its report and counts it. -/
theorem recorded (h : Next s l₀ done n l traits) (hr : Recorded s l₀ done l traits) :
    Recorded s l₀ (done ++ [n]) (s.finishNode (l, traits) n).1
      (s.finishNode (l, traits) n).2 := by
  obtain ⟨hstatistics, nt, hreport, htraits⟩ := h.finishNode_results hr
  have hnew : n ∉ traits.keys := by
    rw [hr.keys]
    exact fun hn => h.not_mem (List.mem_filter.mp hn).1
  constructor
  case waiting => exact fun u hu => h.finishNode_waiting hr hu
  -- A node that has something to report comes to the end of the results.
  case keys =>
    rw [htraits, List.filter_append, ← hr.keys, List.filter_singleton]
    cases s.occupied l₀ n with
    | false => exact (List.append_nil _).symm
    | true => exact OrderedMap.keys_insert_of_new _ hnew
  case reports =>
    intro u nt' hnt'
    rw [htraits] at hnt'
    split at hnt'
    · by_cases hne : u = n
      · subst hne
        rw [OrderedMap.get?_insert_self] at hnt'
        exact Option.some.inj hnt' ▸ hreport
      · rw [OrderedMap.get?_insert_of_ne _ _ hne] at hnt'
        exact hr.reports u nt' hnt'
    · exact hr.reports u nt' hnt'
  case statistics =>
    rw [hstatistics, hr.statistics, List.map_append, List.sum_append, List.map_singleton,
      List.sum_singleton, Statistics.add_assoc]

/-- The entries a node lists once it is finished are those of its groups: each is for the memory its
group stands at, and carries the verdict on it. -/
theorem finishNode_entry (h : Next s l₀ done n l traits) {id : EntryId} {m : EstimateId}
    (hid : id ∈ (s.foldedAt l n).2) (hm : (s.foldedAt l n).1.memory? id = some m) :
    id ∈ (s.finishNode (l, traits) n).1.entriesAt n
      ∧ (s.finishNode (l, traits) n).1.memory? id = some m
      ∧ (s.finishNode (l, traits) n).1.value id = s.verdict l₀ n m := by
  obtain ⟨place, said, g, -⟩ := h.folded
  have st := storeResults_spec g.accounts g.gathers (n := n) (s.unknownsFor l n) traits
  obtain ⟨em, hem, -⟩ := g.gathers.holds_of_mem hid
  rw [h.finishNode_eq]
  generalize s.storeResults n _ _ _ traits = r at st
  refine ⟨?_, (st.refines.memory (g.accounts.grouped.leads hem)).trans hm, ?_⟩
  · show id ∈ ((r.1.nodeEntries.insert n (s.foldedAt l n).2).get? n).getD []
    rw [OrderedMap.get?_insert_self]
    exact hid
  · -- The list and the results are no part of the group, so the account of the stored ledger is left.
    show r.1.value id = _
    have hgroup : Ledger.explicitEntry? r.1 em = some id :=
      (st.refines.within.explicitEntry?_eq em).trans hem
    have hmember : r.1.member id = (s.foldedAt l n).1.member id := by
      funext k
      unfold Ledger.member
      rw [st.refines.within.explicitEntry?_eq]
    rw [(g.accounts_stored st).heard em id hgroup, ← g.meetOver_heard hid hm, hmember,
      st.refines.within.explicit, g.explicit]

/-- In a finished node, the group of memory carries the verdict on the head that stands for it. -/
theorem finishNode_value (h : Next s l₀ done n l traits) {em : EstimateId} {id : EntryId}
    (hid : Ledger.explicitEntry? (s.finishNode (l, traits) n).1 em = some id)
    (hreach : s.reaches n em = true) :
    ∃ m ∈ s.heads l₀ n, s.standsFor n m em = true
      ∧ (s.finishNode (l, traits) n).1.value id = s.verdict l₀ n m := by
  obtain ⟨place, said, g, -⟩ := h.folded
  have st := storeResults_spec g.accounts g.gathers (n := n) (s.unknownsFor l n) traits
  have hid : Ledger.explicitEntry? (s.foldedAt l n).1 em = some id := by
    rw [h.finishNode_eq] at hid
    exact (st.refines.within.explicitEntry?_eq em).symm.trans hid
  -- The group is one of the node's own, so its memory is the head that stands for it.
  have hlisted := (g.gathers.holds em id hid).mpr hreach
  obtain ⟨m, hm⟩ := (g.accounts.grouped.leads hid).exists_memory
  have hkey : em ∈ l₀.explicit.keys := g.explicit ▸ Ledger.mem_explicit_keys.mpr ⟨id, hid⟩
  refine ⟨m, g.mem_heads_iff.mpr ⟨id, hlisted, hm⟩, ?_, (h.finishNode_entry hlisted hm).2.2⟩
  rw [← g.member_eq hlisted hm hkey]
  exact Ledger.member_iff.mpr hid

end Next

/-! ## The whole visit -/

/-- The ledger of the propagation at the time the node is finished. -/
def ledgerAfter (s : Scope) (l : Ledger) (n : AliasNodeId) : Ledger :=
  ((s.tree.postOrder.takeWhile (· != n) ++ [n]).foldl s.finishNode (l, ∅)).1

/-- The ledger after a node, with the visit split at the node. -/
theorem ledgerAfter_eq {before after : List AliasNodeId}
    (hsplit : s.tree.postOrder = before ++ n :: after) (hn : n ∉ before) :
    s.ledgerAfter l n = (s.finishNode (before.foldl s.finishNode (l, ∅)) n).1 := by
  have hbefore : ∀ u ∈ before, (u != n) = true := fun u hu => bne_iff_ne.mpr fun h => hn (h ▸ hu)
  unfold ledgerAfter
  rw [hsplit, List.takeWhile_append_of_pos hbefore, List.takeWhile_cons_of_neg (by simp),
    List.append_nil, List.foldl_append]
  rfl

section Visit

variable (w : s.tree.WellFormed) (f : l₀.Fresh s.tree)

include w f

/-- The propagation in full: which nodes have a result, in which order, what the results are and
what was counted. -/
theorem propagate_recorded (q : l₀.Queued) :
    Recorded s l₀ s.tree.postOrder (s.propagate l₀ ∅).1 (s.propagate l₀ ∅).2 := by
  have hrun := visit_run (P := Recorded s l₀) w (Underway.init f) (.init q)
    (fun before n after hrest => w.postOrder_split hrest)
    fun _ _ _ _ hnext hr => hnext.recorded hr
  exact hrun.2

/-- What is known where the visit of the whole tree comes to a node. -/
theorem next_of_postOrder {before after : List AliasNodeId}
    (hsplit : s.tree.postOrder = before ++ n :: after) :
    Next s l₀ before n (before.foldl s.finishNode (l₀, ∅)).1
      (before.foldl s.finishNode (l₀, ∅)).2 := by
  obtain ⟨hchildren, haround⟩ := w.postOrder_split hsplit
  have hrun : Underway s l₀ ([] ++ before) _ _ := (Underway.init f).run w fun _ _ _ hrest =>
    w.postOrder_split (by rw [hsplit, hrest, List.append_assoc]; rfl)
  exact { hrun with
    wellFormed := w
    children := hchildren
    around := haround }

/-- Once a node is finished, the ledger lists an entry there for each of its heads, and the entry
carries the verdict on it. -/
theorem ledgerAfter_head {m : EstimateId} (hm : m ∈ s.heads l₀ n) :
    ∃ id ∈ (s.ledgerAfter l₀ n).entriesAt n, (s.ledgerAfter l₀ n).memory? id = some m
      ∧ (s.ledgerAfter l₀ n).value id = s.verdict l₀ n m := by
  -- Something below the node was tracked, so it is a node of the tree and the visit comes to it.
  obtain ⟨em, -, hstands⟩ := exists_standsFor_of_mem_heads hm
  have hindex := AliasTree.index_le_of_ancestor (standsFor_iff.mp hstands).1
  have hn := w.mem_postOrder.mpr (Nat.lt_of_le_of_lt hindex (w.home_lt em))
  obtain ⟨before, after, hsplit⟩ := List.append_of_mem hn
  have hnext := next_of_postOrder w f hsplit
  rw [ledgerAfter_eq hsplit hnext.not_mem]
  obtain ⟨place, said, g, -⟩ := hnext.folded
  obtain ⟨id, hid, hmemory⟩ := g.mem_heads_iff.mp hm
  exact ⟨id, hnext.finishNode_entry hid hmemory⟩

/-- In the end, the group of memory carries the verdict on what stands for it at the root. -/
theorem propagate_value {em : EstimateId} {id : EntryId}
    (hid : Ledger.explicitEntry? (s.propagate l₀ ∅).1 em = some id) :
    ∃ m ∈ s.heads l₀ AliasTree.top, s.standsFor AliasTree.top m em = true
      ∧ (s.propagate l₀ ∅).1.value id = s.verdict l₀ AliasTree.top m := by
  -- The root comes last, and nothing is done to the groups after it.
  obtain ⟨before, hbefore⟩ := s.tree.postOrder_concat
  have hnext := next_of_postOrder w f hbefore
  have hlast : s.propagate l₀ ∅ = s.finishNode (before.foldl s.finishNode (l₀, ∅)) AliasTree.top
    := by
    unfold propagate
    rw [hbefore, List.foldl_append]
    rfl
  rw [hlast] at hid ⊢
  exact hnext.finishNode_value hid (w.top_ancestor (w.home_lt em))

/-- Memory was accessed by name in more than its address if what stands for it at the root was. -/
theorem mem_explicitlyAccessed {em : EstimateId} :
    em ∈ (s.propagate l₀ ∅).1.explicitlyAccessed ↔ em ∈ l₀.explicit.keys
      ∧ ∃ m ∈ s.heads l₀ AliasTree.top, s.standsFor AliasTree.top m em = true
        ∧ (s.verdict l₀ AliasTree.top m).is .noAccess = false := by
  have hrun : Underway s l₀ ([] ++ s.tree.postOrder) _ _ := (Underway.init f).run w
    fun before n after hrest => w.postOrder_split hrest
  obtain ⟨place, said, ha, -⟩ := hrun.accounts
  have hexplicit : (s.propagate l₀ ∅).1.explicit = l₀.explicit := hrun.explicit
  have hgrouped : (s.propagate l₀ ∅).1.Grouped := ha.grouped
  -- An entry of the memory has the value of the leader of its group.
  have hvalue {em : EstimateId} {id : EntryId}
      (hid : (s.propagate l₀ ∅).1.explicit.get? em = some id) :
      ∃ m ∈ s.heads l₀ AliasTree.top, s.standsFor AliasTree.top m em = true
        ∧ (s.propagate l₀ ∅).1.value id = s.verdict l₀ AliasTree.top m := by
    rw [← hgrouped.value_leader (hgrouped.entered em id hid)]
    exact propagate_value w f (Ledger.explicitEntry?_of_get? hid)
  unfold Ledger.explicitlyAccessed
  rw [List.mem_map]
  constructor
  · rintro ⟨⟨em', id⟩, hmem, rfl⟩
    obtain ⟨hpair, htouched⟩ := List.mem_filter.mp hmem
    rw [OrderedMap.mem_toList_iff] at hpair
    rw [Bool.not_eq_true'] at htouched
    obtain ⟨m, hm, hstands, heq⟩ := hvalue hpair
    refine ⟨?_, m, hm, hstands, heq ▸ htouched⟩
    rw [← hexplicit]
    exact OrderedMap.mem_keys_iff.mpr ⟨id, hpair⟩
  · rintro ⟨hkey, m, hm, hstands, htouched⟩
    rw [← hexplicit] at hkey
    obtain ⟨id, hid⟩ := OrderedMap.mem_keys_iff.mp hkey
    -- Only one head stands for the memory at the root, so the verdict on it is the one given.
    obtain ⟨m', hm', hstands', heq⟩ := hvalue hid
    obtain rfl := heads_unique hm hm' hstands hstands'
    refine ⟨(em, id), List.mem_filter.mpr ⟨OrderedMap.mem_toList_iff.mpr hid, ?_⟩, rfl⟩
    rw [Bool.not_eq_true', heq]
    exact htouched

end Visit

end Scope

end Privatization
