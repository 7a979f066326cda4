import Privatization.Proofs.Alias.Growth
import Privatization.Proofs.Forest.Traversal

/-!
# Ancestry in an alias tree

The two hierarchies of an alias tree are forests of numbers; this module reads the facts about
forests as facts about nodes and estimate memories. `home_ancestor` relates the two: memory around a
memory lives in a node around the node of that memory.
-/

namespace Privatization.AliasTree

variable {t : AliasTree}

/-! ## Estimate memories -/

/-- One memory is around another if its number is met on the way up. -/
theorem isEstimateAncestor_iff {a e : EstimateId} :
    t.isEstimateAncestor a e = true ↔ a.index ∈ t.estimateForest.lineage e.index :=
  t.estimateForest.isAncestor_iff

theorem estimateForest_parent (e : EstimateId) :
    t.estimateForest.parent e.index = (t.estimateParent? e).map (·.index) := rfl

theorem estimateForest_parent_of {e p : EstimateId} (h : t.estimateParent? e = some p) :
    t.estimateForest.parent e.index = some p.index := by
  rw [estimateForest_parent, h]
  rfl

@[simp] theorem isEstimateAncestor_refl (e : EstimateId) : t.isEstimateAncestor e e = true :=
  isEstimateAncestor_iff.mpr (t.estimateForest.self_mem_lineage _)

/-- What is around a memory is around all inside it. -/
theorem isEstimateAncestor_trans {a b c : EstimateId} (hab : t.isEstimateAncestor a b = true)
    (hbc : t.isEstimateAncestor b c = true) : t.isEstimateAncestor a c = true := by
  rw [isEstimateAncestor_iff] at *
  exact t.estimateForest.lineage_trans hab hbc

/-- What lies around a memory has a smaller number. -/
theorem estimate_index_le_of_ancestor {a b : EstimateId} (h : t.isEstimateAncestor a b = true) :
    a.index ≤ b.index :=
  t.estimateForest.le_of_mem_lineage (isEstimateAncestor_iff.mp h)

/-- Two memories around each other are one. -/
theorem isEstimateAncestor_antisymm {a b : EstimateId} (hab : t.isEstimateAncestor a b = true)
    (hba : t.isEstimateAncestor b a = true) : a = b := by
  rw [isEstimateAncestor_iff] at *
  exact congrArg EstimateId.mk (t.estimateForest.lineage_antisymm hab hba)

/-- Two memories around one memory lie one around the other. -/
theorem isEstimateAncestor_chain {a b c : EstimateId} (ha : t.isEstimateAncestor a c = true)
    (hb : t.isEstimateAncestor b c = true) :
    t.isEstimateAncestor a b = true ∨ t.isEstimateAncestor b a = true := by
  rw [isEstimateAncestor_iff] at *
  rw [isEstimateAncestor_iff]
  exact t.estimateForest.lineage_chain ha hb

/-- The parent of a memory is around it. -/
theorem isEstimateAncestor_parent {e p : EstimateId} (h : t.estimateParent? e = some p) :
    t.isEstimateAncestor p e = true :=
  isEstimateAncestor_iff.mpr (t.estimateForest.parent_mem_lineage (estimateForest_parent_of h))

/-- No memory is its own parent. -/
theorem parent_ne {e p : EstimateId} (h : t.estimateParent? e = some p) : p ≠ e := by
  rintro rfl
  exact Nat.lt_irrefl _ (t.estimateForest.parent_lt (estimateForest_parent_of h))

/-- Memory strictly around a memory lies around its parent. -/
theorem exists_parent_of_ancestor {a e : EstimateId} (h : t.isEstimateAncestor a e = true)
    (hne : a ≠ e) : ∃ p, t.estimateParent? e = some p ∧ t.isEstimateAncestor a p = true := by
  rw [isEstimateAncestor_iff] at h
  have hindex : a.index ≠ e.index := fun hi => hne (congrArg EstimateId.mk hi)
  cases hp : t.estimateParent? e with
  | none =>
    have hroot : t.estimateForest.parent e.index = none := by rw [estimateForest_parent, hp]; rfl
    exact absurd ((t.estimateForest.mem_lineage_of_none hroot).mp h) hindex
  | some p =>
    have hp' := estimateForest_parent_of hp
    exact ⟨p, rfl, isEstimateAncestor_iff.mpr (t.estimateForest.mem_lineage_parent hp' h hindex)⟩

/-! ## Nodes -/

/-- Ancestry of nodes is membership in the lineage of their numbers. -/
theorem isNodeAncestor_iff {a n : AliasNodeId} :
    t.isNodeAncestor a n = true ↔ a.index ∈ t.nodeForest.lineage n.index :=
  t.nodeForest.isAncestor_iff

theorem nodeForest_parent (n : AliasNodeId) :
    t.nodeForest.parent n.index = (t.nodeParent? n).map (·.index) := rfl

theorem nodeForest_parent_of {n p : AliasNodeId} (h : t.nodeParent? n = some p) :
    t.nodeForest.parent n.index = some p.index := by
  rw [nodeForest_parent, h]
  rfl

@[simp] theorem isNodeAncestor_refl (n : AliasNodeId) : t.isNodeAncestor n n = true :=
  isNodeAncestor_iff.mpr (t.nodeForest.self_mem_lineage _)

/-- What is around a node is around all below it. -/
theorem isNodeAncestor_trans {a b c : AliasNodeId} (hab : t.isNodeAncestor a b = true)
    (hbc : t.isNodeAncestor b c = true) : t.isNodeAncestor a c = true := by
  rw [isNodeAncestor_iff] at *
  exact t.nodeForest.lineage_trans hab hbc

/-- What lies around a node has a smaller number. -/
theorem index_le_of_ancestor {a n : AliasNodeId} (h : t.isNodeAncestor a n = true) :
    a.index ≤ n.index :=
  t.nodeForest.le_of_mem_lineage (isNodeAncestor_iff.mp h)

/-- Two nodes around each other are one. -/
theorem isNodeAncestor_antisymm {a b : AliasNodeId} (hab : t.isNodeAncestor a b = true)
    (hba : t.isNodeAncestor b a = true) : a = b := by
  rw [isNodeAncestor_iff] at *
  exact congrArg AliasNodeId.mk (t.nodeForest.lineage_antisymm hab hba)

/-- Two nodes around one node lie one around the other. -/
theorem isNodeAncestor_chain {a b c : AliasNodeId} (ha : t.isNodeAncestor a c = true)
    (hb : t.isNodeAncestor b c = true) :
    t.isNodeAncestor a b = true ∨ t.isNodeAncestor b a = true := by
  rw [isNodeAncestor_iff] at *
  rw [isNodeAncestor_iff]
  exact t.nodeForest.lineage_chain ha hb

theorem isNodeAncestor_parent {c n : AliasNodeId} (h : t.nodeParent? c = some n) :
    t.isNodeAncestor n c = true :=
  isNodeAncestor_iff.mpr (t.nodeForest.parent_mem_lineage (nodeForest_parent_of h))

/-- A child is not around its parent. -/
theorem not_isNodeAncestor_of_parent {c n : AliasNodeId} (h : t.nodeParent? c = some n) :
    t.isNodeAncestor c n = false := by
  rw [Bool.eq_false_iff, ne_eq, isNodeAncestor_iff]
  exact t.nodeForest.not_mem_lineage_of_parent (nodeForest_parent_of h)

/-- Siblings have no node in common. -/
theorem eq_of_sibling_ancestors {c d n m : AliasNodeId} (hc : t.nodeParent? c = some n)
    (hd : t.nodeParent? d = some n) (hcm : t.isNodeAncestor c m = true)
    (hdm : t.isNodeAncestor d m = true) : c = d := by
  rw [isNodeAncestor_iff] at *
  exact congrArg AliasNodeId.mk
    (t.nodeForest.eq_of_siblings (nodeForest_parent_of hc) (nodeForest_parent_of hd) hcm hdm)

/-- A node with a parent is in range. -/
theorem node_lt_of_parent {c n : AliasNodeId} (h : t.nodeParent? c = some n) :
    c.index < t.nodes.size := by
  obtain ⟨node, hnode, -⟩ := Option.bind_eq_some_iff.mp h
  exact (Array.getElem?_eq_some_iff.mp hnode).1

/-- A node lists the nodes whose parent it is. -/
theorem mem_nodeChildren {c n : AliasNodeId} :
    c ∈ t.nodeChildren n ↔ t.nodeParent? c = some n := by
  have hindex : (t.nodeParent? c).map (·.index) = some n.index ↔ t.nodeParent? c = some n := by
    cases t.nodeParent? c with
    | none => simp
    | some p =>
      rw [Option.map_some, Option.some.injEq, Option.some.injEq]
      exact ⟨congrArg AliasNodeId.mk, congrArg AliasNodeId.index⟩
  constructor
  · intro h
    obtain ⟨i, hi, rfl⟩ := List.mem_map.mp h
    exact hindex.mp (t.nodeForest.mem_children.mp hi).2
  · intro h
    refine List.mem_map.mpr ⟨c.index, ?_, rfl⟩
    exact t.nodeForest.mem_children.mpr ⟨node_lt_of_parent h, hindex.mpr h⟩

theorem nodeChildren_nodup (n : AliasNodeId) : (t.nodeChildren n).Nodup :=
  (List.pairwise_map.mpr ((t.nodeForest.children_nodup n.index).imp
    fun hne h => hne (congrArg AliasNodeId.index h)))

/-- Strictly inside a node, every node lies in one of its children. -/
theorem exists_child_of_ancestor {a n : AliasNodeId} (h : t.isNodeAncestor a n = true)
    (hne : a ≠ n) : ∃ c, t.nodeParent? c = some a ∧ t.isNodeAncestor c n = true := by
  rw [isNodeAncestor_iff] at h
  have hindex : a.index ≠ n.index := fun hi => hne (congrArg AliasNodeId.mk hi)
  obtain ⟨c, hc, hcn⟩ := t.nodeForest.exists_child_of_mem_lineage h hindex
  refine ⟨⟨c⟩, ?_, isNodeAncestor_iff.mpr hcn⟩
  rw [nodeForest_parent ⟨c⟩] at hc
  obtain ⟨p, hp, hpa⟩ := Option.map_eq_some_iff.mp hc
  rw [hp]
  exact congrArg (some <| AliasNodeId.mk ·) hpa

/-! ## Nodes and memories together -/

/-- Every memory has its home in the tree; memory without record has it at the root. -/
theorem WellFormed.home_lt (w : t.WellFormed) (e : EstimateId) :
    (t.home e).index < t.nodes.size := by
  unfold home
  cases he : t.estimate? e with
  | none => exact w.rooted
  | some m => exact w.housed e.index m he

/-- The memory directly around a memory lives at its node or around it. -/
theorem WellFormed.home_parent (w : t.WellFormed) {e p : EstimateId}
    (h : t.estimateParent? e = some p) : t.isNodeAncestor (t.home p) (t.home e) = true := by
  obtain ⟨m, hm, hp⟩ := Option.bind_eq_some_iff.mp h
  have hlt : e.index < t.estimates.size := (Array.getElem?_eq_some_iff.mp hm).1
  have hpe : p.index < e.index := t.estimate_parent_lt e.index m p hm hp
  obtain ⟨outer, ho⟩ : ∃ outer, t.estimate? p = some outer :=
    ⟨_, Array.getElem?_eq_getElem (Nat.lt_trans hpe hlt)⟩
  have hnested := w.nested e.index m outer p hm hp ho
  unfold home
  rw [hm, ho]
  exact hnested

/-- Memory around a memory lives in a node around its node. -/
theorem WellFormed.home_ancestor (w : t.WellFormed) {a e : EstimateId}
    (h : t.isEstimateAncestor a e = true) : t.isNodeAncestor (t.home a) (t.home e) = true := by
  obtain ⟨i⟩ := e
  -- Upwards along the memory, with one step of the tree for each.
  induction i using t.estimateForest.lineage_induction with
  | root i hi =>
    rw [isEstimateAncestor_iff, t.estimateForest.mem_lineage_of_none hi] at h
    rw [show a = ⟨i⟩ from congrArg EstimateId.mk h]
    exact isNodeAncestor_refl _
  | step i p hp ih =>
    by_cases hne : a = ⟨i⟩
    · rw [hne]
      exact isNodeAncestor_refl _
    · obtain ⟨q, hq, haq⟩ := exists_parent_of_ancestor h hne
      have hqp : q = ⟨p⟩ := by
        rw [estimateForest_parent_of hq] at hp
        exact congrArg EstimateId.mk (Option.some.inj hp)
      subst hqp
      exact isNodeAncestor_trans (ih haq) (w.home_parent hq)

/-- The root lies around every node. -/
theorem WellFormed.top_ancestor (w : t.WellFormed) {n : AliasNodeId}
    (hn : n.index < t.nodes.size) : t.isNodeAncestor top n = true := by
  rw [isNodeAncestor_iff]
  obtain ⟨i⟩ := n
  induction i using t.nodeForest.lineage_induction with
  | root i hi =>
    by_cases h0 : i = 0
    · subst h0
      exact t.nodeForest.self_mem_lineage 0
    · obtain ⟨p, hp⟩ := w.inner i _ (Array.getElem?_eq_getElem hn) h0
      have hsome : t.nodeForest.parent i = some p.index := by
        refine nodeForest_parent_of (n := ⟨i⟩) (Option.bind_eq_some_iff.mpr ?_)
        exact ⟨_, Array.getElem?_eq_getElem hn, hp⟩
      rw [hi] at hsome
      exact absurd hsome (by simp)
  | step i p hp ih =>
    have hpi := t.nodeForest.parent_lt hp
    exact (t.nodeForest.mem_lineage_of_some hp).mpr (.inr (ih (Nat.lt_trans hpi hn)))

/-! ## What lies below a node -/

/-- The forest of nodes has parents for numbers in range only. -/
theorem nodeForest_lt_of_parent (i p : Nat) (h : t.nodeForest.parent i = some p) :
    i < t.nodeForest.size := by
  obtain ⟨q, hq, -⟩ := Option.map_eq_some_iff.mp h
  exact node_lt_of_parent (c := ⟨i⟩) hq

/-- The descendants of a node are the nodes it lies around. -/
theorem mem_descendants {n x : AliasNodeId} (hn : n.index < t.nodes.size) :
    x ∈ t.descendants n ↔ t.isNodeAncestor n x = true := by
  rw [isNodeAncestor_iff]
  constructor
  · intro h
    obtain ⟨i, hi, rfl⟩ := List.mem_map.mp h
    exact ((t.nodeForest.mem_preOrder hn).mp hi).2
  · intro h
    have hx := Forest.lt_of_mem_lineage nodeForest_lt_of_parent hn h
    exact List.mem_map.mpr ⟨x.index, (t.nodeForest.mem_preOrder hn).mpr ⟨hx, h⟩, rfl⟩

/-- The descendants of the children of a node are what lies strictly below it. -/
theorem mem_below {c x : AliasNodeId} :
    x ∈ (t.nodeChildren c).flatMap t.descendants ↔ t.isNodeAncestor c x = true ∧ c ≠ x := by
  rw [List.mem_flatMap]
  constructor
  · rintro ⟨d, hd, hdx⟩
    have hparent := mem_nodeChildren.mp hd
    have hdx := (mem_descendants (node_lt_of_parent hparent)).mp hdx
    refine ⟨isNodeAncestor_trans (isNodeAncestor_parent hparent) hdx, ?_⟩
    rintro rfl
    rw [not_isNodeAncestor_of_parent hparent] at hdx
    cases hdx
  · rintro ⟨hcx, hne⟩
    obtain ⟨d, hparent, hdx⟩ := exists_child_of_ancestor hcx hne
    refine ⟨d, mem_nodeChildren.mpr hparent, ?_⟩
    exact (mem_descendants (node_lt_of_parent hparent)).mpr hdx

/-! ## The order of the visit -/

/-- The visit comes to the nodes of the tree. -/
theorem WellFormed.mem_postOrder (w : t.WellFormed) {n : AliasNodeId} :
    n ∈ t.postOrder ↔ n.index < t.nodes.size := by
  have htop : top.index < t.nodeForest.size := w.rooted
  constructor
  · intro h
    obtain ⟨i, hi, rfl⟩ := List.mem_map.mp h
    exact ((t.nodeForest.mem_postOrder htop).mp hi).1
  · intro h
    refine List.mem_map.mpr ⟨n.index, ?_, rfl⟩
    exact (t.nodeForest.mem_postOrder htop).mpr ⟨h, isNodeAncestor_iff.mp (w.top_ancestor h)⟩

/-- The post-order comes to each node once. -/
theorem WellFormed.postOrder_nodup (w : t.WellFormed) : t.postOrder.Nodup := by
  have hnodup := (t.nodeForest.preOrder_perm_postOrder top.index).nodup_iff.mp
    (t.nodeForest.preOrder_nodup w.rooted)
  exact List.pairwise_map.mpr (hnodup.imp fun hne heq => hne (congrArg AliasNodeId.index heq))

/-- The root is visited last. -/
theorem postOrder_concat (t : AliasTree) : ∃ before, t.postOrder = before ++ [top] := by
  unfold postOrder
  rw [t.nodeForest.postOrder_eq, List.map_append]
  exact ⟨_, rfl⟩

/-- Where a node stands in the visit: its children are before it, and nothing before it lies around
it. -/
theorem WellFormed.postOrder_split (w : t.WellFormed) {n : AliasNodeId}
    {before after : List AliasNodeId} (h : t.postOrder = before ++ n :: after) :
    (∀ c, t.nodeParent? c = some n → c ∈ before)
      ∧ ∀ a ∈ before, t.isNodeAncestor a n = false := by
  obtain ⟨pre, rest, hsplit, rfl, hrest⟩ := List.map_eq_append_iff.mp h
  obtain ⟨i, post, rfl, rfl, rfl⟩ := List.map_eq_cons_iff.mp hrest
  obtain ⟨hchildren, haround⟩ := t.nodeForest.postOrder_split w.rooted hsplit
  constructor
  · intro c hc
    obtain ⟨j, hj, rfl⟩ := List.mem_map.mp (mem_nodeChildren.mpr hc)
    exact List.mem_map.mpr ⟨j, hchildren j hj, rfl⟩
  · intro a ha
    obtain ⟨j, hj, rfl⟩ := List.mem_map.mp ha
    rw [Bool.eq_false_iff, ne_eq, isNodeAncestor_iff]
    exact haround j hj

end Privatization.AliasTree
