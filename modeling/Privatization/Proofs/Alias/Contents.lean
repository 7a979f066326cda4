import Privatization.Proofs.Alias.Ancestry

/-!
# What nodes and memories contain

The children, the memory and the unknown accesses of a node and the parts of a memory are read off
the records of a tree. An addition appends what it adds to the list of one node, or of one memory,
and leaves every other list as it was.
-/

namespace Privatization.AliasTree

variable {t t' : AliasTree}

/-! ## What an addition adds to the lists -/

/-- A new node is listed behind the other children of its parent. -/
theorem nodeChildren_addNode {parent n : AliasNodeId} {kind : AliasNodeKind}
    (h : t.addNode parent kind = .ok (t', n)) (m : AliasNodeId) :
    t'.nodeChildren m = t.nodeChildren m ++ if parent = m then [n] else [] := by
  obtain ⟨-, -, rfl, hnodes, -, -⟩ := addNode_eq_ok h
  have hsize : t'.nodeForest.size = t.nodeForest.size + 1 :=
    (congrArg Array.size hnodes).trans (Array.size_push _)
  -- A node knows its parent by the record that is pushed, and no other record changes.
  have hparent (i : Nat) : t'.nodeForest.parent i
      = if i = t.nodes.size then some parent.index else t.nodeForest.parent i := by
    show (t'.nodes[i]?.bind (·.parent)).map (·.index) = _
    rw [hnodes, Array.getElem?_push]
    split <;> rfl
  have hindex : some parent.index = some m.index ↔ parent = m :=
    Option.some_inj.trans ⟨congrArg AliasNodeId.mk, congrArg AliasNodeId.index⟩
  unfold nodeChildren
  rw [Forest.children_concat hsize hparent, List.map_append]
  simp only [hindex]
  split <;> rfl

/-- New memory is listed behind the other parts of the memory around it, if there is one. -/
theorem estimateChildren_addEstimate {node : AliasNodeId} {pointers : List ValueId}
    {size : Option Nat} {offset : Nat} {parent : Option EstimateId} {e : EstimateId}
    (h : t.addEstimate node pointers size offset parent = .ok (t', e)) (m : EstimateId) :
    t'.estimateChildren m = t.estimateChildren m ++ if parent = some m then [e] else [] := by
  obtain ⟨-, -, rfl, -, -, front, others, -, hestimates⟩ := addEstimate_eq_ok h
  have hsize : t'.estimateForest.size = t.estimateForest.size + 1 :=
    (congrArg Array.size hestimates).trans (Array.size_push _)
  have hparent (i : Nat) : t'.estimateForest.parent i
      = if i = t.estimates.size then parent.map (·.index) else t.estimateForest.parent i := by
    show (t'.estimates[i]?.bind (·.parent)).map (·.index) = _
    rw [hestimates, Array.getElem?_push]
    split <;> rfl
  have hindex : parent.map (·.index) = some m.index ↔ parent = some m := by
    rw [Option.map_eq_some_iff]
    constructor
    · rintro ⟨p, hp, hi⟩
      exact hp.trans (congrArg (some <| EstimateId.mk ·) hi)
    · exact fun hp => ⟨m, hp, rfl⟩
  unfold estimateChildren
  rw [Forest.children_concat hsize hparent, List.map_append]
  simp only [hindex]
  split <;> rfl

/-- A new memory is listed behind the other memory of its node. -/
theorem nodeEstimates_addEstimate {node : AliasNodeId} {pointers : List ValueId}
    {size : Option Nat} {offset : Nat} {parent : Option EstimateId} {e : EstimateId}
    (h : t.addEstimate node pointers size offset parent = .ok (t', e)) (n : AliasNodeId) :
    t'.nodeEstimates n = t.nodeEstimates n ++ if node = n then [e] else [] := by
  obtain ⟨-, -, rfl, -, -, front, others, -, hestimates⟩ := addEstimate_eq_ok h
  have hids : t'.estimateIds = t.estimateIds ++ [⟨t.estimates.size⟩] := by
    unfold estimateIds
    rw [hestimates, Array.size_push, List.range_succ, List.map_append]
    rfl
  unfold nodeEstimates estimate?
  rw [hids, List.filter_append, hestimates]
  -- Old numbers find the records they found, and the new number finds the new one.
  congr 1
  · refine List.filter_congr fun m hm => ?_
    obtain ⟨i, hi, rfl⟩ := List.mem_map.mp hm
    rw [Array.getElem?_push, if_neg (Nat.ne_of_lt (List.mem_range.mp hi))]
  · rw [List.filter_singleton, Array.getElem?_push, if_pos rfl, Option.any_some]
    by_cases hn : node = n
    · rw [if_pos hn, beq_iff_eq.mpr hn, cond_true]
    · rw [if_neg hn, beq_eq_false_iff_ne.mpr hn, cond_false]

/-- An unknown access is listed behind the others of its node. -/
theorem nodeUnknowns_addUnknown {node : AliasNodeId} {inst : InstId}
    (h : t.addUnknown node inst = .ok t') (n : AliasNodeId) :
    t'.nodeUnknowns n = t.nodeUnknowns n ++ if node = n then [inst] else [] := by
  obtain ⟨-, -, -, hattributions⟩ := addUnknown_eq_ok h
  unfold nodeUnknowns
  rw [hattributions, List.filter_append, List.map_append, List.filter_singleton]
  congr 1
  by_cases hn : node = n
  · rw [if_pos hn, beq_iff_eq.mpr hn]
    rfl
  · rw [if_neg hn, beq_eq_false_iff_ne.mpr hn]
    rfl

/-! What stays as it was is listed as before. -/

theorem nodeChildren_congr (h : t'.nodes = t.nodes) (n : AliasNodeId) :
    t'.nodeChildren n = t.nodeChildren n := by
  cases t; cases t'; cases h; rfl

theorem nodeEstimates_congr (h : t'.estimates = t.estimates) (n : AliasNodeId) :
    t'.nodeEstimates n = t.nodeEstimates n := by
  cases t; cases t'; cases h; rfl

theorem nodeUnknowns_congr (h : t'.attributions = t.attributions) (n : AliasNodeId) :
    t'.nodeUnknowns n = t.nodeUnknowns n := by
  cases t; cases t'; cases h; rfl

theorem estimateChildren_congr (h : t'.estimates = t.estimates) (e : EstimateId) :
    t'.estimateChildren e = t.estimateChildren e := by
  cases t; cases t'; cases h; rfl

/-! ## Membership -/

/-- A node lists the memory whose record names it. -/
theorem mem_nodeEstimates {n : AliasNodeId} {e : EstimateId} :
    e ∈ t.nodeEstimates n ↔ (t.estimate? e).map (·.node) = some n := by
  unfold nodeEstimates
  rw [List.mem_filter, Option.any_eq_true, Option.map_eq_some_iff]
  constructor
  · rintro ⟨-, m, hm, hn⟩
    exact ⟨m, hm, beq_iff_eq.mp hn⟩
  · rintro ⟨m, hm, hn⟩
    refine ⟨?_, m, hm, beq_iff_eq.mpr hn⟩
    exact List.mem_map.mpr ⟨e.index, List.mem_range.mpr (Array.getElem?_eq_some_iff.mp hm).1, rfl⟩

/-- A memory lists the memory whose record names it as parent. -/
theorem mem_estimateChildren {m c : EstimateId} :
    c ∈ t.estimateChildren m ↔ t.estimateParent? c = some m := by
  unfold estimateChildren
  rw [List.mem_map]
  constructor
  · rintro ⟨i, hi, rfl⟩
    obtain ⟨p, hp, hpm⟩ := Option.map_eq_some_iff.mp (t.estimateForest.mem_children.mp hi).2
    exact hp.trans (congrArg (some <| EstimateId.mk ·) hpm)
  · intro h
    obtain ⟨x, hx, -⟩ := Option.bind_eq_some_iff.mp h
    refine ⟨c.index, t.estimateForest.mem_children.mpr ⟨?_, estimateForest_parent_of h⟩, rfl⟩
    exact (Array.getElem?_eq_some_iff.mp hx).1

/-- No memory is listed twice. -/
theorem nodeEstimates_nodup (n : AliasNodeId) : (t.nodeEstimates n).Nodup :=
  (List.pairwise_map.mpr (List.nodup_range.imp
    fun hne h => hne (congrArg EstimateId.index h))).filter _

theorem estimateChildren_nodup (m : EstimateId) : (t.estimateChildren m).Nodup :=
  List.pairwise_map.mpr ((t.estimateForest.children_nodup m.index).imp
    fun hne h => hne (congrArg EstimateId.index h))

/-! Numbers that are not taken yet list nothing. -/

/-- A number beyond the nodes has no children, for parents are older than children. -/
theorem nodeChildren_eq_nil {n : AliasNodeId} (h : t.nodes.size ≤ n.index) :
    t.nodeChildren n = [] := by
  refine List.eq_nil_iff_forall_not_mem.mpr fun c hc => ?_
  have hparent := mem_nodeChildren.mp hc
  have := t.nodeForest.parent_lt (nodeForest_parent_of hparent)
  have := node_lt_of_parent hparent
  omega

/-- A number beyond the memories has no parts. -/
theorem estimateChildren_eq_nil {e : EstimateId} (h : t.estimates.size ≤ e.index) :
    t.estimateChildren e = [] := by
  refine List.eq_nil_iff_forall_not_mem.mpr fun c hc => ?_
  have hparent := mem_estimateChildren.mp hc
  obtain ⟨m, hm, -⟩ := Option.bind_eq_some_iff.mp hparent
  have := t.estimateForest.parent_lt (estimateForest_parent_of hparent)
  have := (Array.getElem?_eq_some_iff.mp hm).1
  omega

/-- No memory lives at a number beyond the nodes. -/
theorem WellFormed.nodeEstimates_eq_nil (w : t.WellFormed) {n : AliasNodeId}
    (h : t.nodes.size ≤ n.index) : t.nodeEstimates n = [] := by
  refine List.eq_nil_iff_forall_not_mem.mpr fun e he => ?_
  obtain ⟨m, hm, rfl⟩ := Option.map_eq_some_iff.mp (mem_nodeEstimates.mp he)
  exact Nat.not_le_of_lt (w.housed e.index m hm) h

/-- No unknown access is attributed to a node out of range. -/
theorem WellFormed.nodeUnknowns_eq_nil (w : t.WellFormed) {n : AliasNodeId}
    (h : t.nodes.size ≤ n.index) : t.nodeUnknowns n = [] := by
  refine List.map_eq_nil_iff.mpr (List.filter_eq_nil_iff.mpr fun a ha hn => ?_)
  have := w.attributed a ha
  rw [beq_iff_eq.mp hn] at this
  omega

end Privatization.AliasTree
