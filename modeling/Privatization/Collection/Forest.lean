/-!
# Forests of numbered nodes

Nodes are numbered in the order they were added and each names at most one parent, added before
it. Children are read off the parents, so siblings come in the order they were added. Climbing goes
to smaller numbers and descending to larger ones, which is why both end.
-/

namespace Privatization

/-- `size` numbered nodes, each with at most one parent of a smaller number. -/
structure Forest where
  size : Nat
  parent : Nat → Option Nat
  parent_lt : ∀ {i p : Nat}, parent i = some p → p < i

namespace Forest

variable (f : Forest)

/-- A node and its ancestors, innermost first. -/
def lineage (i : Nat) : List Nat :=
  match h : f.parent i with
  | none => [i]
  | some p =>
    have := f.parent_lt h
    i :: lineage p
termination_by i

/-- Whether `a` is `i` or one of its ancestors. -/
def isAncestor (a i : Nat) : Bool := decide (a ∈ f.lineage i)

/-- The outermost ancestor of a node. -/
def root (i : Nat) : Nat := (f.lineage i).getLastD i

/-- The nodes directly below a node, in the order they were added. -/
def children (i : Nat) : List Nat :=
  (List.range f.size).filter fun c => f.parent c == some i

/-- The nodes without parent, in the order they were added. -/
def roots : List Nat :=
  (List.range f.size).filter fun c => f.parent c == none

theorem mem_children {i c : Nat} : c ∈ f.children i ↔ c < f.size ∧ f.parent c = some i := by
  simp [children]

/-- A node and everything below it, parents before their children. -/
def preOrder (i : Nat) : List Nat :=
  i :: (f.children i).attach.flatMap fun c => preOrder c.1
termination_by f.size - i
decreasing_by
  obtain ⟨hlt, hp⟩ := f.mem_children.mp c.2
  have := f.parent_lt hp
  omega

/-- A node and everything below it, children before their parents. -/
def postOrder (i : Nat) : List Nat :=
  ((f.children i).attach.flatMap fun c => postOrder c.1) ++ [i]
termination_by f.size - i
decreasing_by
  obtain ⟨hlt, hp⟩ := f.mem_children.mp c.2
  have := f.parent_lt hp
  omega

/-! ### Unfolding -/

theorem lineage_of_none {i : Nat} (h : f.parent i = none) : f.lineage i = [i] := by
  rw [lineage]; split <;> simp_all

theorem lineage_of_some {i p : Nat} (h : f.parent i = some p) :
    f.lineage i = i :: f.lineage p := by
  rw [lineage]; split <;> simp_all

theorem preOrder_eq (i : Nat) : f.preOrder i = i :: (f.children i).flatMap f.preOrder := by
  rw [preOrder]
  congr 1
  rw [List.flatMap_subtype (g := f.preOrder) (fun _ _ => rfl), List.unattach_attach]

theorem postOrder_eq (i : Nat) : f.postOrder i = (f.children i).flatMap f.postOrder ++ [i] := by
  rw [postOrder]
  congr 1
  rw [List.flatMap_subtype (g := f.postOrder) (fun _ _ => rfl), List.unattach_attach]

/-- Everything on a stack of nodes and below it: the node on top is visited, and its children take
its place. -/
def stackOrder : List Nat → List Nat
  | [] => []
  | i :: stack => i :: stackOrder (f.children i ++ stack)
termination_by stack => (stack.flatMap f.preOrder).length
decreasing_by
  -- What is still to be visited loses the node itself.
  rw [List.flatMap_append, List.flatMap_cons, f.preOrder_eq i, List.cons_append, List.length_cons]
  exact Nat.lt_succ_self _

theorem self_mem_lineage (i : Nat) : i ∈ f.lineage i := by
  cases h : f.parent i with
  | none => simp [f.lineage_of_none h]
  | some p => simp [f.lineage_of_some h]

/-- Ancestors have numbers at most that of the node. -/
theorem le_of_mem_lineage {a i : Nat} (h : a ∈ f.lineage i) : a ≤ i := by
  induction i using Nat.strongRecOn with
  | ind i ih =>
    cases hp : f.parent i with
    | none => rw [f.lineage_of_none hp] at h; simp at h; omega
    | some p =>
      rw [f.lineage_of_some hp] at h
      have hlt := f.parent_lt hp
      rcases List.mem_cons.mp h with rfl | h
      · exact Nat.le_refl _
      · have := ih p hlt h; omega

end Forest

end Privatization
