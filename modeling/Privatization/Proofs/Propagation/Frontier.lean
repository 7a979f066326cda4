import Privatization.Proofs.Alias.Ancestry

/-!
# The frontier of a visit

While a tree is visited children first, what was found below a node waits at the node until the
visit reaches its parent. So at any time the nodes that hold something form a *frontier*: nodes not
visited yet, which hold what is their own, and visited nodes below an unvisited parent, which hold
everything at or below them. Two nodes of the frontier hold nothing in common (`share_disjoint`),
and a visited node takes over exactly what it and its children held (`share_of_visit`).
-/

namespace Privatization.AliasTree

variable {t : AliasTree} {done : List AliasNodeId} {c d n u v x : AliasNodeId}

/-- Every child of a visited node is visited. -/
def Closed (t : AliasTree) (done : List AliasNodeId) : Prop :=
  ∀ d ∈ done, ∀ c, t.nodeParent? c = some d → c ∈ done

/-- A node that holds something: it is not visited, or its parent is not. -/
def Frontier (t : AliasTree) (done : List AliasNodeId) (u : AliasNodeId) : Prop :=
  u ∈ done → ∀ p, t.nodeParent? u = some p → p ∉ done

/-- What a node of the frontier holds, by where it comes from. -/
def share (t : AliasTree) (done : List AliasNodeId) (u x : AliasNodeId) : Prop :=
  if u ∈ done then t.isNodeAncestor u x = true else x = u

/-- A node that is done speaks for all that is below it. -/
theorem share_of_mem (h : u ∈ done) : t.share done u x ↔ t.isNodeAncestor u x = true := by
  unfold share
  rw [if_pos h]

/-- A node that is not done speaks for itself only. -/
theorem share_of_not_mem (h : u ∉ done) : t.share done u x ↔ x = u := by
  unfold share
  rw [if_neg h]

/-- Whatever a node speaks for is at or below it. -/
theorem share_ancestor (h : t.share done u x) : t.isNodeAncestor u x = true := by
  by_cases hu : u ∈ done
  · exact (share_of_mem hu).mp h
  · rw [(share_of_not_mem hu).mp h]
    exact isNodeAncestor_refl u

/-- Everything below a visited node is visited. -/
theorem Closed.mem_of_ancestor (h : t.Closed done) (hd : d ∈ done)
    (hx : t.isNodeAncestor d x = true) : x ∈ done := by
  obtain ⟨i⟩ := x
  induction i using t.nodeForest.lineage_induction with
  | root i hi =>
    rw [isNodeAncestor_iff, t.nodeForest.mem_lineage_of_none hi] at hx
    rwa [show (⟨i⟩ : AliasNodeId) = d from congrArg AliasNodeId.mk hx.symm]
  | step i p hp ih =>
    by_cases hne : d = ⟨i⟩
    · rwa [← hne]
    · obtain ⟨q, hq, rfl⟩ := Option.map_eq_some_iff.mp hp
      rw [isNodeAncestor_iff] at hx
      have hindex : d.index ≠ i := fun hi => hne (congrArg AliasNodeId.mk hi)
      have hdq := t.nodeForest.mem_lineage_parent hp hx hindex
      exact h q (ih (isNodeAncestor_iff.mpr hdq)) ⟨i⟩ hq

/-- Below a visited node no other node holds anything. -/
theorem Closed.eq_of_ancestor (h : t.Closed done) (hu : u ∈ done) (hv : t.Frontier done v)
    (huv : t.isNodeAncestor u v = true) : u = v := by
  by_cases hne : u = v
  · exact hne
  · have hvd := h.mem_of_ancestor hu huv
    rw [isNodeAncestor_iff] at huv
    have hindex : u.index ≠ v.index := fun hi => hne (congrArg AliasNodeId.mk hi)
    cases hp : t.nodeParent? v with
    | none =>
      have hroot : t.nodeForest.parent v.index = none := by rw [nodeForest_parent, hp]; rfl
      exact absurd ((t.nodeForest.mem_lineage_of_none hroot).mp huv) hindex
    | some p =>
      have hup := t.nodeForest.mem_lineage_parent (nodeForest_parent_of hp) huv hindex
      exact absurd (h.mem_of_ancestor hu (isNodeAncestor_iff.mpr hup)) (hv hvd p hp)

/-- Two nodes of the frontier hold nothing in common. -/
theorem Closed.share_disjoint (h : t.Closed done) (hu : t.Frontier done u) (hv : t.Frontier done v)
    (hne : u ≠ v) (hux : t.share done u x) : ¬t.share done v x := by
  intro hvx
  by_cases hud : u ∈ done
  · by_cases hvd : v ∈ done
    · rcases isNodeAncestor_chain (share_ancestor hux) (share_ancestor hvx) with huv | hvu
      · exact hne (h.eq_of_ancestor hud hv huv)
      · exact hne (h.eq_of_ancestor hvd hu hvu).symm
    · obtain rfl := (share_of_not_mem hvd).mp hvx
      exact hne (h.eq_of_ancestor hud hv (share_ancestor hux))
  · obtain rfl := (share_of_not_mem hud).mp hux
    by_cases hvd : v ∈ done
    · exact hne (h.eq_of_ancestor hvd hu (share_ancestor hvx)).symm
    · exact hne ((share_of_not_mem hvd).mp hvx)

/-! ## Visiting one more node -/

section Visit

variable (h : t.Closed done) (hchildren : ∀ c, t.nodeParent? c = some n → c ∈ done)
  (haround : ∀ a ∈ done, t.isNodeAncestor a n = false)

include hchildren in
/-- Visiting a node whose children are done keeps the visited nodes closed. -/
theorem Closed.visit (h : t.Closed done) : t.Closed (done ++ [n]) := by
  intro d hd c hc
  rcases List.mem_append.mp hd with hd | hd
  · exact List.mem_append_left [n] (h d hd c hc)
  · rw [List.mem_singleton.mp hd] at hc
    exact List.mem_append_left [n] (hchildren c hc)

include haround

/-- A node to be visited is not visited yet. -/
theorem not_mem_of_around : n ∉ done := by
  intro hn
  have := haround n hn
  rw [isNodeAncestor_refl] at this
  cases this

/-- The children of the next node are on the frontier. -/
theorem frontier_child (hc : t.nodeParent? c = some n) : t.Frontier done c := by
  intro _ p hp
  rw [hc] at hp
  cases hp
  exact not_mem_of_around haround

theorem frontier_visit : t.Frontier (done ++ [n]) n := by
  intro _ p hp hpd
  rcases List.mem_append.mp hpd with hpd | hpn
  · have := haround p hpd
    rw [isNodeAncestor_parent hp] at this
    cases this
  · rw [List.mem_singleton.mp hpn] at hp
    have hlt := t.nodeForest.parent_lt (nodeForest_parent_of hp)
    exact Nat.lt_irrefl _ hlt

omit haround in
/-- The frontier after the visit, but for the node itself, is what it was without the children. -/
theorem frontier_of_visit (hu : t.Frontier (done ++ [n]) u) : t.Frontier done u :=
  fun hud p hp hpd => hu (List.mem_append_left [n] hud) p hp (List.mem_append_left [n] hpd)

omit haround in
/-- Elsewhere, the visit changes nothing. -/
theorem share_visit_of_ne (hne : u ≠ n) : t.share (done ++ [n]) u x ↔ t.share done u x := by
  have hmem : u ∈ done ++ [n] ↔ u ∈ done := by
    rw [List.mem_append, List.mem_singleton]
    exact ⟨fun hu => hu.resolve_right hne, .inl⟩
  unfold share
  simp only [hmem]

omit haround in
/-- After its visit a node speaks for all that is below it. -/
theorem share_visit_self : t.share (done ++ [n]) n x ↔ t.isNodeAncestor n x = true :=
  share_of_mem (List.mem_append_right done (List.mem_singleton.mpr rfl))

include hchildren

/-- The node takes over what it held itself and what its children held. -/
theorem share_of_visit : t.isNodeAncestor n x = true ↔
    t.share done n x ∨ ∃ c ∈ t.nodeChildren n, t.share done c x := by
  rw [share_of_not_mem (not_mem_of_around haround)]
  constructor
  · intro hnx
    by_cases hne : n = x
    · exact .inl hne.symm
    · obtain ⟨c, hc, hcx⟩ := exists_child_of_ancestor hnx hne
      exact .inr ⟨c, mem_nodeChildren.mpr hc, (share_of_mem (hchildren c hc)).mpr hcx⟩
  · rintro (rfl | ⟨c, hc, hcx⟩)
    · exact isNodeAncestor_refl x
    · exact isNodeAncestor_trans (isNodeAncestor_parent (mem_nodeChildren.mp hc))
        (share_ancestor hcx)

end Visit

end Privatization.AliasTree
