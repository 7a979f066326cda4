import Privatization.Collection.Forest

/-!
# Ancestry in a forest

`a ∈ f.lineage i` reads "`a` is `i` or lies around it". The lineage of a node is a chain: two
ancestors of one node are ancestors of each other (`lineage_chain`), a lineage contains the lineage
of each of its members (`lineage_trans`), and numbers fall along it (`le_of_mem_lineage`, beside the
definition). `path` is the part of a lineage that ends at a given ancestor.
-/

namespace Privatization.Forest

variable (f : Forest)

/-! ## Membership in a lineage -/

theorem mem_lineage_of_none {a i : Nat} (h : f.parent i = none) : a ∈ f.lineage i ↔ a = i := by
  rw [f.lineage_of_none h, List.mem_singleton]

theorem mem_lineage_of_some {a i p : Nat} (h : f.parent i = some p) :
    a ∈ f.lineage i ↔ a = i ∨ a ∈ f.lineage p := by
  rw [f.lineage_of_some h, List.mem_cons]

theorem isAncestor_iff {a i : Nat} : f.isAncestor a i = true ↔ a ∈ f.lineage i := by
  unfold isAncestor
  exact decide_eq_true_iff

/-- The parent of a node lies around it. -/
theorem parent_mem_lineage {i p : Nat} (h : f.parent i = some p) : p ∈ f.lineage i :=
  (f.mem_lineage_of_some h).mpr (.inr (f.self_mem_lineage p))

/-- Induction along a lineage: a fact of every root that passes from a parent to its children. -/
theorem lineage_induction {motive : Nat → Prop} (i : Nat)
    (root : ∀ i, f.parent i = none → motive i)
    (step : ∀ i p, f.parent i = some p → motive p → motive i) : motive i := by
  induction i using Nat.strongRecOn with
  | ind i ih =>
    cases hp : f.parent i with
    | none => exact root i hp
    | some p => exact step i p hp (ih p (f.parent_lt hp))

theorem lineage_trans {a b c : Nat} (hab : a ∈ f.lineage b) (hbc : b ∈ f.lineage c) :
    a ∈ f.lineage c := by
  induction c using f.lineage_induction with
  | root c hc =>
    rw [f.mem_lineage_of_none hc] at hbc
    exact hbc ▸ hab
  | step c p hp ih =>
    rcases (f.mem_lineage_of_some hp).mp hbc with rfl | hbp
    · exact hab
    · exact (f.mem_lineage_of_some hp).mpr (.inr (ih hbp))

theorem lineage_antisymm {a b : Nat} (hab : a ∈ f.lineage b) (hba : b ∈ f.lineage a) : a = b :=
  Nat.le_antisymm (f.le_of_mem_lineage hab) (f.le_of_mem_lineage hba)

/-- Two ancestors of one node are on one path. -/
theorem lineage_chain {a b c : Nat} (ha : a ∈ f.lineage c) (hb : b ∈ f.lineage c) :
    a ∈ f.lineage b ∨ b ∈ f.lineage a := by
  induction c using f.lineage_induction with
  | root c hc =>
    rw [f.mem_lineage_of_none hc] at ha hb
    subst ha hb
    exact .inl (f.self_mem_lineage _)
  | step c p hp ih =>
    rcases (f.mem_lineage_of_some hp).mp ha with rfl | hap
    · exact .inr hb
    · rcases (f.mem_lineage_of_some hp).mp hb with rfl | hbp
      · exact .inl ha
      · exact ih hap hbp

/-- Below a proper ancestor stands the child through which the lineage reaches it. -/
theorem exists_child_of_mem_lineage {a i : Nat} (h : a ∈ f.lineage i) (hne : a ≠ i) :
    ∃ c, f.parent c = some a ∧ c ∈ f.lineage i := by
  induction i using f.lineage_induction with
  | root i hi => exact absurd ((f.mem_lineage_of_none hi).mp h) hne
  | step i p hp ih =>
    rcases (f.mem_lineage_of_some hp).mp h with rfl | hap
    · exact absurd rfl hne
    · by_cases hpa : a = p
      · exact ⟨i, hpa ▸ hp, f.self_mem_lineage i⟩
      · obtain ⟨c, hc, hcp⟩ := ih hap hpa
        exact ⟨c, hc, (f.mem_lineage_of_some hp).mpr (.inr hcp)⟩

/-- A proper ancestor lies around the parent. -/
theorem mem_lineage_parent {a i p : Nat} (hp : f.parent i = some p) (h : a ∈ f.lineage i)
    (hne : a ≠ i) : a ∈ f.lineage p :=
  ((f.mem_lineage_of_some hp).mp h).resolve_left hne

/-- A parent does not lie inside its child. -/
theorem not_mem_lineage_of_parent {c p : Nat} (h : f.parent c = some p) : c ∉ f.lineage p := by
  intro hc
  have := f.le_of_mem_lineage hc
  have := f.parent_lt h
  omega

/-- What lies inside a node of the forest is in the forest, if only such nodes have parents. -/
theorem lt_of_mem_lineage {f : Forest} {i x : Nat}
    (hchild : ∀ j p, f.parent j = some p → j < f.size) (hi : i < f.size) (h : i ∈ f.lineage x) :
    x < f.size := by
  cases hp : f.parent x with
  | none => exact (f.mem_lineage_of_none hp).mp h ▸ hi
  | some p => exact hchild x p hp

/-- Siblings have no node in common. -/
theorem eq_of_siblings {a b p i : Nat} (ha : f.parent a = some p) (hb : f.parent b = some p)
    (hai : a ∈ f.lineage i) (hbi : b ∈ f.lineage i) : a = b := by
  -- Of two different siblings, one lies around the other's parent, which is its own parent.
  have absurdity {x y : Nat} (hx : f.parent x = some p) (hy : f.parent y = some p)
      (hxy : x ∈ f.lineage y) : x = y := by
    by_cases hne : x = y
    · exact hne
    · exact absurd (f.mem_lineage_parent hy hxy hne) (f.not_mem_lineage_of_parent hx)
  rcases f.lineage_chain hai hbi with hab | hba
  · exact absurdity ha hb hab
  · exact (absurdity hb ha hba).symm

/-- Nodes inside different siblings lie on different paths. -/
theorem not_mem_lineage_of_siblings {a b p x y : Nat} (ha : f.parent a = some p)
    (hb : f.parent b = some p) (hne : a ≠ b) (hax : a ∈ f.lineage x) (hby : b ∈ f.lineage y) :
    x ∉ f.lineage y :=
  fun hxy => hne (f.eq_of_siblings ha hb (f.lineage_trans hax hxy) hby)

/-- A lineage depends on the parents of numbers up to the node alone. -/
theorem lineage_congr {f g : Forest} {i : Nat} (h : ∀ j, j ≤ i → f.parent j = g.parent j) :
    f.lineage i = g.lineage i := by
  induction i using f.lineage_induction with
  | root i hi => rw [f.lineage_of_none hi, g.lineage_of_none (by rw [← h i (Nat.le_refl i), hi])]
  | step i p hp ih =>
    have hlt := f.parent_lt hp
    rw [f.lineage_of_some hp, g.lineage_of_some (by rw [← h i (Nat.le_refl i), hp]),
      ih fun j hj => h j (by omega)]

/-- The outermost ancestor is an ancestor. -/
theorem root_mem_lineage (i : Nat) : f.root i ∈ f.lineage i := by
  have hne := List.ne_nil_of_mem (f.self_mem_lineage i)
  rw [root, List.getLastD_eq_getLast?, List.getLast?_eq_some_getLast hne]
  exact List.getLast_mem hne

/-- A node and its parent have the same outermost ancestor. -/
theorem root_of_parent {i p : Nat} (h : f.parent i = some p) : f.root i = f.root p := by
  obtain ⟨above, habove⟩ : ∃ above, f.lineage p = p :: above := by
    cases hp : f.parent p with
    | none => exact ⟨[], f.lineage_of_none hp⟩
    | some q => exact ⟨_, f.lineage_of_some hp⟩
  unfold root
  rw [f.lineage_of_some h, habove, List.getLastD_cons, List.getLastD_cons, List.getLastD_cons]

/-- The outermost ancestor is the only one without parent. -/
theorem root_iff {r i : Nat} : r ∈ f.lineage i ∧ f.parent r = none ↔ r = f.root i := by
  induction i using f.lineage_induction with
  | root i hi =>
    rw [f.mem_lineage_of_none hi, (f.mem_lineage_of_none hi).mp (f.root_mem_lineage i)]
    exact and_iff_left_of_imp fun h => h ▸ hi
  | step i p hp ih =>
    rw [f.root_of_parent hp, ← ih, f.mem_lineage_of_some hp]
    refine and_congr_left fun hr => or_iff_right ?_
    rintro rfl
    rw [hr] at hp
    cases hp

/-! ## Paths

`path i a` is the way from `i` up to its ancestor `a`, both included. Climbing from a child of `a`
to `a` adds `a` at its end. -/

/-- The nodes from `i` up to `a`, innermost first; none if `a` does not lie around `i`. -/
def path (i a : Nat) : List Nat := (f.lineage i).filter (f.isAncestor a)

theorem mem_path {i a d : Nat} : d ∈ f.path i a ↔ d ∈ f.lineage i ∧ a ∈ f.lineage d := by
  rw [path, List.mem_filter, isAncestor_iff]

/-- Nothing strictly around `a` is on a path that ends there. -/
theorem filter_lineage_eq_nil {a p : Nat} (h : f.parent a = some p) :
    (f.lineage p).filter (f.isAncestor a) = [] := by
  rw [List.filter_eq_nil_iff]
  intro d hd
  rw [isAncestor_iff]
  intro had
  exact f.not_mem_lineage_of_parent h (f.lineage_trans had hd)

theorem path_self (a : Nat) : f.path a a = [a] := by
  have haa : f.isAncestor a a = true := f.isAncestor_iff.mpr (f.self_mem_lineage a)
  cases hp : f.parent a with
  | none => rw [path, f.lineage_of_none hp, List.filter_cons_of_pos haa, List.filter_nil]
  | some p =>
    rw [path, f.lineage_of_some hp, List.filter_cons_of_pos haa, f.filter_lineage_eq_nil hp]

/-- A path begins at the node itself. -/
theorem path_of_parent {i p a : Nat} (hp : f.parent i = some p) (ha : a ∈ f.lineage p) :
    f.path i a = i :: f.path p a := by
  have hai : f.isAncestor a i = true :=
    f.isAncestor_iff.mpr ((f.mem_lineage_of_some hp).mpr (.inr ha))
  rw [path, f.lineage_of_some hp, List.filter_cons_of_pos hai, path]

theorem path_ne_nil {i a : Nat} (h : a ∈ f.lineage i) : f.path i a ≠ [] :=
  List.ne_nil_of_mem (f.mem_path.mpr ⟨h, f.self_mem_lineage a⟩)

/-- The path to a node is the path to its child on the way, and the node. -/
theorem path_child {i c a : Nat} (hc : f.parent c = some a) (h : c ∈ f.lineage i) :
    f.path i a = f.path i c ++ [a] := by
  induction i using f.lineage_induction with
  | root i hi =>
    obtain rfl := (f.mem_lineage_of_none hi).mp h
    rw [hi] at hc
    exact absurd hc (by simp)
  | step i p hp ih =>
    by_cases hci : c = i
    · subst hci
      obtain rfl : p = a := by rw [hp] at hc; exact Option.some.inj hc
      rw [f.path_of_parent hp (f.self_mem_lineage p), f.path_self, f.path_self]
      rfl
    · have hcp := f.mem_lineage_parent hp h hci
      have hap := f.lineage_trans (f.parent_mem_lineage hc) hcp
      rw [f.path_of_parent hp hap, f.path_of_parent hp hcp, ih hcp, List.cons_append]

end Privatization.Forest
