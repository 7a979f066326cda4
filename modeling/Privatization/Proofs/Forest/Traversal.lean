import Mathlib.Data.List.Perm.Subperm
import Privatization.Proofs.Collection.Lists
import Privatization.Proofs.Forest.Ancestry

/-!
# Visiting a forest

The post-order of a node lists what lies below it, and no node in it stands before one of its own
descendants. Both facts together say everything a pass over the post-order needs: each node comes
once, its children before it, and what lies around it after it. Siblings come in the order they were
added (`postOrder_siblings`).

A stack that starts with the roots visits every node of the forest, as pre-orders of the roots one
after the other do (`stackOrder_eq`).
-/

namespace Privatization.Forest

variable (f : Forest)

/-- Induction over the nodes of a forest from the children of a node to the node. -/
theorem children_induction {motive : Nat → Prop} (i : Nat)
    (step : ∀ i, (∀ c ∈ f.children i, motive c) → motive i) : motive i := by
  induction i using postOrder.induct f with
  | case1 i ih => exact step i fun c hc => ih ⟨c, hc⟩

/-- What the post-order of a node visits: the node and everything below it. -/
theorem mem_postOrder {i x : Nat} (hi : i < f.size) :
    x ∈ f.postOrder i ↔ x < f.size ∧ i ∈ f.lineage x := by
  induction i using f.children_induction with
  | step i ih =>
    rw [f.postOrder_eq, List.mem_append, List.mem_singleton, List.mem_flatMap]
    constructor
    · rintro (⟨c, hc, hx⟩ | rfl)
      · obtain ⟨hlt, hp⟩ := f.mem_children.mp hc
        obtain ⟨hxs, hcx⟩ := (ih c hc hlt).mp hx
        exact ⟨hxs, f.lineage_trans (f.parent_mem_lineage hp) hcx⟩
      · exact ⟨hi, f.self_mem_lineage x⟩
    · rintro ⟨hxs, hix⟩
      by_cases hne : i = x
      · exact .inr hne.symm
      · obtain ⟨c, hp, hcx⟩ := f.exists_child_of_mem_lineage hix hne
        have hcs : c < f.size := Nat.lt_of_le_of_lt (f.le_of_mem_lineage hcx) hxs
        have hc : c ∈ f.children i := f.mem_children.mpr ⟨hcs, hp⟩
        exact .inl ⟨c, hc, (ih c hc hcs).mpr ⟨hxs, hcx⟩⟩

/-- A pre-order visits the same nodes in another order. -/
theorem preOrder_perm_postOrder (i : Nat) : (f.preOrder i).Perm (f.postOrder i) := by
  induction i using f.children_induction with
  | step i ih =>
    rw [f.preOrder_eq, f.postOrder_eq]
    have hbelow : ((f.children i).flatMap f.preOrder).Perm ((f.children i).flatMap f.postOrder) :=
      List.Perm.flatMap_left _ ih
    exact (hbelow.cons i).trans (List.perm_append_singleton i _).symm

theorem mem_preOrder {i x : Nat} (hi : i < f.size) :
    x ∈ f.preOrder i ↔ x < f.size ∧ i ∈ f.lineage x := by
  rw [(f.preOrder_perm_postOrder i).mem_iff, f.mem_postOrder hi]

/-- Siblings come in the order they were added. -/
theorem children_pairwise (i : Nat) : (f.children i).Pairwise (· < ·) :=
  List.pairwise_lt_range.filter _

theorem children_nodup (i : Nat) : (f.children i).Nodup :=
  (f.children_pairwise i).imp Nat.ne_of_lt

/-- Of the nodes with a given parent, a forest with one node more has the old ones first and the new
one, if it is one of them, last. -/
theorem filter_parent_concat {f g : Forest} {p : Option Nat} (hsize : g.size = f.size + 1)
    (hparent : ∀ i, g.parent i = if i = f.size then p else f.parent i) (q : Option Nat) :
    (List.range g.size).filter (fun c => g.parent c == q)
      = (List.range f.size).filter (fun c => f.parent c == q) ++ if p = q then [f.size] else [] := by
  rw [hsize, List.range_succ, List.filter_append]
  congr 1
  · refine List.filter_congr fun c hc => ?_
    rw [hparent, if_neg (Nat.ne_of_lt (List.mem_range.mp hc))]
  · rw [List.filter_singleton, hparent, if_pos rfl]
    by_cases hq : p = q
    · rw [if_pos hq, beq_iff_eq.mpr hq, cond_true]
    · rw [if_neg hq, beq_eq_false_iff_ne.mpr hq, cond_false]

/-- A node more comes last among the children of its parent, and leaves the children of others. -/
theorem children_concat {f g : Forest} {p : Option Nat} (hsize : g.size = f.size + 1)
    (hparent : ∀ i, g.parent i = if i = f.size then p else f.parent i) (i : Nat) :
    g.children i = f.children i ++ if p = some i then [f.size] else [] :=
  filter_parent_concat hsize hparent (some i)

/-- In a post-order no node stands before something that lies inside it. -/
theorem postOrder_pairwise {i : Nat} (hi : i < f.size) :
    (f.postOrder i).Pairwise fun a b => a ∉ f.lineage b := by
  induction i using f.children_induction with
  | step i ih =>
    rw [f.postOrder_eq, List.pairwise_append, List.pairwise_flatMap]
    refine ⟨⟨fun c hc => ih c hc (f.mem_children.mp hc).1, ?_⟩, List.pairwise_singleton .., ?_⟩
    · refine (f.children_nodup i).imp_of_mem fun {c d} hc hd hne x hx y hy => ?_
      obtain ⟨hcs, hcp⟩ := f.mem_children.mp hc
      obtain ⟨hds, hdp⟩ := f.mem_children.mp hd
      exact f.not_mem_lineage_of_siblings hcp hdp hne ((f.mem_postOrder hcs).mp hx).2
        ((f.mem_postOrder hds).mp hy).2
    · -- What lies below `i` does not lie around it.
      intro x hx y hy
      obtain rfl := List.mem_singleton.mp hy
      obtain ⟨c, hc, hxc⟩ := List.mem_flatMap.mp hx
      obtain ⟨hcs, hcp⟩ := f.mem_children.mp hc
      have hcx := ((f.mem_postOrder hcs).mp hxc).2
      intro hxy
      exact f.not_mem_lineage_of_parent hcp (f.lineage_trans hcx hxy)

/-- In a post-order siblings stand in the order they were added. -/
theorem postOrder_siblings {i : Nat} (hi : i < f.size) :
    (f.postOrder i).Pairwise fun a b =>
      ∀ p, f.parent a = some p → f.parent b = some p → a < b := by
  induction i using f.children_induction with
  | step i ih =>
    -- The order ends with `i` itself, behind the orders of its children.
    rw [f.postOrder_eq, List.pairwise_append, List.pairwise_flatMap]
    refine ⟨⟨fun c hc => ih c hc (f.mem_children.mp hc).1, ?_⟩, List.pairwise_singleton .., ?_⟩
    · -- Below different children of `i`, only the children themselves are siblings.
      refine (f.children_pairwise i).imp_of_mem fun {c d} hc hd hlt x hx y hy p hxp hyp => ?_
      obtain ⟨hcs, hcp⟩ := f.mem_children.mp hc
      obtain ⟨hds, hdp⟩ := f.mem_children.mp hd
      have hcx := ((f.mem_postOrder hcs).mp hx).2
      have hdy := ((f.mem_postOrder hds).mp hy).2
      by_cases hxc : c = x
      · subst hxc
        obtain rfl : i = p := Option.some.inj (hcp.symm.trans hxp)
        by_cases hyd : d = y
        · exact hyd ▸ hlt
        · exact absurd (f.mem_lineage_parent hyp hdy hyd) (f.not_mem_lineage_of_parent hdp)
      · have hcy := f.lineage_trans (f.mem_lineage_parent hxp hcx hxc) (f.parent_mem_lineage hyp)
        exact absurd (f.eq_of_siblings hcp hdp hcy hdy) (Nat.ne_of_lt hlt)
    · -- Nothing below `i` is a sibling of `i`.
      intro x hx y hy p hxp hip
      obtain rfl := List.mem_singleton.mp hy
      obtain ⟨c, hc, hxc⟩ := List.mem_flatMap.mp hx
      obtain ⟨hcs, hcp⟩ := f.mem_children.mp hc
      have hcx := ((f.mem_postOrder hcs).mp hxc).2
      by_cases hne : c = x
      · subst hne
        obtain rfl : y = p := Option.some.inj (hcp.symm.trans hxp)
        exact absurd (f.parent_lt hip) (Nat.lt_irrefl y)
      · have hcy := f.lineage_trans (f.mem_lineage_parent hxp hcx hne) (f.parent_mem_lineage hip)
        exact absurd hcy (f.not_mem_lineage_of_parent hcp)

/-- Where a node stands in a post-order: its children are before it, and nothing before it lies
around it. -/
theorem postOrder_split {i n : Nat} {before after : List Nat} (hi : i < f.size)
    (h : f.postOrder i = before ++ n :: after) :
    (∀ c ∈ f.children n, c ∈ before) ∧ ∀ a ∈ before, a ∉ f.lineage n := by
  have hpw := f.postOrder_pairwise hi
  have hn : n ∈ f.postOrder i := h ▸ List.mem_append_right before List.mem_cons_self
  constructor
  · intro c hc
    obtain ⟨hcs, hcp⟩ := f.mem_children.mp hc
    have hnc := f.parent_mem_lineage hcp
    have hin := ((f.mem_postOrder hi).mp hn).2
    have hmem := (f.mem_postOrder hi).mpr ⟨hcs, f.lineage_trans hin hnc⟩
    exact mem_before hpw h hmem (Nat.ne_of_gt (f.parent_lt hcp)) (not_not.mpr hnc)
  · intro a ha
    rw [h, List.pairwise_append] at hpw
    exact hpw.2.2 a ha n List.mem_cons_self

theorem preOrder_nodup {i : Nat} (hi : i < f.size) : (f.preOrder i).Nodup := by
  refine (f.preOrder_perm_postOrder i).nodup_iff.mpr ((f.postOrder_pairwise hi).imp ?_)
  rintro a _ ha rfl
  exact ha (f.self_mem_lineage a)

/-- What lies below a node is part of the forest. -/
theorem length_preOrder_le {i : Nat} (hi : i < f.size) : (f.preOrder i).length ≤ f.size := by
  have hsub : f.preOrder i ⊆ List.range f.size := fun x hx =>
    List.mem_range.mpr ((f.mem_preOrder hi).mp hx).1
  have hle := (List.subperm_of_subset (f.preOrder_nodup hi) hsub).length_le
  rwa [List.length_range] at hle

/-! ## The whole forest -/

theorem mem_roots {i : Nat} : i ∈ f.roots ↔ i < f.size ∧ f.parent i = none := by
  rw [roots, List.mem_filter, List.mem_range, beq_iff_eq]

/-- A stack visits what each of its nodes would, from the top down. -/
theorem stackOrder_eq (stack : List Nat) : f.stackOrder stack = stack.flatMap f.preOrder := by
  induction stack using stackOrder.induct f with
  | case1 => rw [stackOrder, List.flatMap_nil]
  | case2 i stack ih =>
    rw [stackOrder, ih, List.flatMap_append, List.flatMap_cons, f.preOrder_eq i, List.cons_append]

/-- Above every node stands exactly one root. -/
theorem exists_root (i : Nat) : ∃ r ∈ f.lineage i, f.parent r = none := by
  induction i using f.lineage_induction with
  | root i hi => exact ⟨i, f.self_mem_lineage i, hi⟩
  | step i p hp ih =>
    obtain ⟨r, hr, hnone⟩ := ih
    exact ⟨r, (f.mem_lineage_of_some hp).mpr (.inr hr), hnone⟩

theorem eq_of_roots {r q i : Nat} (hr : f.parent r = none) (hq : f.parent q = none)
    (hri : r ∈ f.lineage i) (hqi : q ∈ f.lineage i) : r = q := by
  rcases f.lineage_chain hri hqi with h | h
  · exact (f.mem_lineage_of_none hq).mp h
  · exact ((f.mem_lineage_of_none hr).mp h).symm

/-- From the roots, every node of the forest is visited. -/
theorem mem_stackOrder_roots {i : Nat} : i ∈ f.stackOrder f.roots ↔ i < f.size := by
  rw [f.stackOrder_eq, List.mem_flatMap]
  constructor
  · rintro ⟨r, hr, hi⟩
    exact ((f.mem_preOrder (f.mem_roots.mp hr).1).mp hi).1
  · intro hi
    obtain ⟨r, hr, hnone⟩ := f.exists_root i
    have hsize : r < f.size := Nat.lt_of_le_of_lt (f.le_of_mem_lineage hr) hi
    exact ⟨r, f.mem_roots.mpr ⟨hsize, hnone⟩, (f.mem_preOrder hsize).mpr ⟨hi, hr⟩⟩

end Privatization.Forest
