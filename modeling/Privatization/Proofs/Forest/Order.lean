import Privatization.Proofs.Forest.Traversal

/-!
# The order of a forest

A node precedes what lies inside it, and what is at or inside a node precedes what is at or inside a
later sibling of the node, where the nodes without parent are siblings of each other. No two nodes
precede each other (`not_precedes`). A walk from the roots visits the nodes in this order
(`stackOrder_roots_pairwise`), so it comes to no node twice, and of two nodes to the preceding one
first (`sublist_stackOrder`).
-/

namespace Privatization.Forest

variable {f : Forest} {a b i j : Nat}

/-- Where a walk comes to `a` before it comes to `b`. -/
inductive Precedes (f : Forest) (a b : Nat) : Prop where
  | inside (hne : a ≠ b) (hab : a ∈ f.lineage b)
  | siblings {i j : Nat} (hparent : f.parent i = f.parent j) (hlt : i < j) (ha : i ∈ f.lineage a)
      (hb : j ∈ f.lineage b)

/-- Of the nodes with one parent, or of those without parent, one at most lies around a node. -/
theorem eq_of_parent_eq {x : Nat} (hparent : f.parent i = f.parent j) (hi : i ∈ f.lineage x)
    (hj : j ∈ f.lineage x) : i = j := by
  cases hp : f.parent i with
  | none => exact f.eq_of_roots hp (hparent ▸ hp) hi hj
  | some p => exact f.eq_of_siblings hp (hparent ▸ hp) hi hj

/-- Around a node and its siblings lie the same nodes, apart from themselves. -/
theorem mem_lineage_sibling {x : Nat} (hparent : f.parent i = f.parent j) (hx : x ∈ f.lineage i)
    (hne : x ≠ i) : x ∈ f.lineage j := by
  cases hp : f.parent i with
  | none => exact absurd ((f.mem_lineage_of_none hp).mp hx) hne
  | some p =>
    exact (f.mem_lineage_of_some (hparent ▸ hp)).mpr (.inr (f.mem_lineage_parent hp hx hne))

/-- The order is asymmetric. -/
theorem not_precedes (h : f.Precedes a b) : ¬f.Precedes b a := by
  intro h'
  cases h with
  | inside hne hab =>
    cases h' with
    | inside _ hba => exact hne (f.lineage_antisymm hab hba)
    | siblings hparent hlt hi hj =>
      have heq := eq_of_parent_eq hparent hi (f.lineage_trans hj hab)
      exact Nat.ne_of_lt hlt heq
  | @siblings i j hparent hlt hi hj =>
    cases h' with
    | inside _ hba =>
      have heq := eq_of_parent_eq hparent hi (f.lineage_trans hj hba)
      exact Nat.ne_of_lt hlt heq
    | @siblings k l hparent' hlt' hk hl =>
      -- One of `i` and `l` lies around the other, or they are one node and all four are siblings.
      by_cases hil : i = l
      · subst hil
        have heq := eq_of_parent_eq (hparent'.trans hparent) hk hj
        omega
      · rcases f.lineage_chain hi hl with h | h
        · have hik := mem_lineage_sibling hparent'.symm h hil
          exact Nat.ne_of_lt hlt (eq_of_parent_eq hparent (f.lineage_trans hik hk) hj)
        · have hlj := mem_lineage_sibling hparent h (Ne.symm hil)
          exact Nat.ne_of_lt hlt' (eq_of_parent_eq hparent' hk (f.lineage_trans hlj hj))

/-- No node precedes itself. -/
theorem Precedes.ne (h : f.Precedes a b) : a ≠ b := by
  rintro rfl
  exact not_precedes h h

/-! ## Walks -/

/-- A pre-order lists nodes in the order of the forest, by induction on the subtrees. -/
theorem preOrder_precedes (hi : i < f.size) : (f.preOrder i).Pairwise f.Precedes := by
  induction i using f.children_induction with
  | step i ih =>
    rw [f.preOrder_eq, List.pairwise_cons, List.pairwise_flatMap]
    refine ⟨fun x hx => ?_, fun c hc => ih c hc (f.mem_children.mp hc).1, ?_⟩
    · -- What comes behind the node lies in one of its children.
      obtain ⟨c, hc, hxc⟩ := List.mem_flatMap.mp hx
      obtain ⟨hcs, hcp⟩ := f.mem_children.mp hc
      have hcx := ((f.mem_preOrder hcs).mp hxc).2
      refine .inside ?_ (f.lineage_trans (f.parent_mem_lineage hcp) hcx)
      rintro rfl
      exact f.not_mem_lineage_of_parent hcp hcx
    · refine (f.children_pairwise i).imp_of_mem fun {c d} hc hd hlt x hx y hy => ?_
      -- What lies in two children is in order because the children are.
      obtain ⟨hcs, hcp⟩ := f.mem_children.mp hc
      obtain ⟨hds, hdp⟩ := f.mem_children.mp hd
      exact .siblings (hcp.trans hdp.symm) hlt ((f.mem_preOrder hcs).mp hx).2
        ((f.mem_preOrder hds).mp hy).2

/-- In a pre-order no node stands before something that lies around it. -/
theorem preOrder_pairwise (f : Forest) (hi : i < f.size) :
    (f.preOrder i).Pairwise fun a b => b ∉ f.lineage a :=
  (preOrder_precedes hi).imp fun h hba => not_precedes h (.inside h.ne.symm hba)

/-- A walk from the roots lists all nodes in the order of the forest. -/
theorem stackOrder_roots_pairwise (f : Forest) : (f.stackOrder f.roots).Pairwise f.Precedes := by
  rw [f.stackOrder_eq, List.pairwise_flatMap]
  refine ⟨fun r hr => preOrder_precedes (f.mem_roots.mp hr).1, ?_⟩
  have hroots : f.roots.Pairwise (· < ·) := List.pairwise_lt_range.filter _
  refine hroots.imp_of_mem fun {r q} hr hq hlt x hx y hy => ?_
  obtain ⟨hrs, hrp⟩ := f.mem_roots.mp hr
  obtain ⟨hqs, hqp⟩ := f.mem_roots.mp hq
  exact .siblings (hrp.trans hqp.symm) hlt ((f.mem_preOrder hrs).mp hx).2
    ((f.mem_preOrder hqs).mp hy).2

/-- The traversal of all roots comes to no node twice. -/
theorem stackOrder_roots_nodup (f : Forest) : (f.stackOrder f.roots).Nodup :=
  f.stackOrder_roots_pairwise.imp Precedes.ne

/-- The traversal of all roots has at most as many members as there are nodes. -/
theorem length_stackOrder_roots_le (f : Forest) : (f.stackOrder f.roots).length ≤ f.size := by
  have hsub : f.stackOrder f.roots ⊆ List.range f.size := fun _ hi =>
    List.mem_range.mpr (f.mem_stackOrder_roots.mp hi)
  have hle := (List.subperm_of_subset f.stackOrder_roots_nodup hsub).length_le
  rwa [List.length_range] at hle

/-- Of two nodes a walk from the roots comes to the preceding one first. -/
theorem sublist_stackOrder (h : f.Precedes a b) (ha : a < f.size) (hb : b < f.size) :
    [a, b].Sublist (f.stackOrder f.roots) :=
  pair_sublist f.stackOrder_roots_pairwise (f.mem_stackOrder_roots.mpr ha)
    (f.mem_stackOrder_roots.mpr hb) h.ne (not_precedes h)

end Privatization.Forest
