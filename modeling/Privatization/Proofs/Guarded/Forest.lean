import Mathlib.Algebra.BigOperators.Ring.List
import Mathlib.Algebra.Ring.Nat
import Privatization.Proofs.Forest.Traversal
import Privatization.Proofs.Guarded.Basic

/-!
# Guarded walks in a forest

Climbs from a node towards its root and traversals of what lies below it, over a stack. They look
the parent or the children of a node up when they reach it. Where these look-ups agree with a forest
of `size` nodes, a climb is over after `size + 1` turns and a traversal after twice as many, and
both give what the forest says.
-/

namespace Privatization.Guarded

/-! ## Climbs and traversals -/

/-- Whether the climb from `i` meets `a`. -/
def meets (up : Nat → Guarded (Option Nat)) (turns a i : Nat) : Guarded Bool :=
  loop (fun
    | none => return .inr false
    | some i => if i = a then return .inr true else return .inl (← up i)) turns (some i)

/-- The last node of the climb from `i` that goes on as long as `stays` allows. -/
def climb (up : Nat → Guarded (Option Nat)) (stays : Nat → Guarded Bool) (turns i : Nat) :
    Guarded Nat :=
  loop (fun i => do
    match ← up i with
    | none => return .inr i
    | some p => if ← stays p then return .inl p else return .inr i) turns i

/-- A turn of `descend`: the node on top of the stack is visited, and its children take its
place. -/
def descendTurn (below : Nat → Guarded (List Nat)) :
    List Nat × List Nat → Guarded (List Nat × List Nat ⊕ List Nat)
  | ([], visited) => return .inr visited
  | (i :: stack, visited) => return .inl ((← below i) ++ stack, visited ++ [i])

/-- What lies below `i`, parents before their children. -/
def descend (below : Nat → Guarded (List Nat)) (turns i : Nat) : Guarded (List Nat) :=
  loop (descendTurn below) turns ([i], [])

/-- A turn of `ascend`: a node met for the first time is put back below its children, marked, and a
marked one is visited. -/
def ascendTurn (below : Nat → Guarded (List Nat)) :
    List (Nat × Bool) × List Nat → Guarded (List (Nat × Bool) × List Nat ⊕ List Nat)
  | ([], visited) => return .inr visited
  | ((i, true) :: stack, visited) => return .inl (stack, visited ++ [i])
  | ((i, false) :: stack, visited) => do
    let inner := (← below i).map fun c => (c, false)
    return .inl (inner ++ (i, true) :: stack, visited)

/-- What lies below `i`, children before their parents. -/
def ascend (below : Nat → Guarded (List Nat)) (turns i : Nat) : Guarded (List Nat) :=
  loop (ascendTurn below) turns ([(i, false)], [])

/-! ## Where the look-ups agree with a forest -/

variable {F : Forest} {up : Nat → Guarded (Option Nat)} {below : Nat → Guarded (List Nat)} {i : Nat}

section Climbing

variable (hup : ∀ i < F.size, up i = .ok (F.parent i))

include hup

theorem meets_eq (a : Nat) (hi : i < F.size) :
    meets up (F.size + 1) a i = .ok (F.isAncestor a i) := by
  -- A parent has a smaller number than its child, so numbers count the turns; `none` is the state
  -- above a root.
  refine loop_eq (fun s => ∀ i, s = some i → i < F.size) (·.elim false (F.isAncestor a))
    (·.elim 0 (· + 1)) ?_ ?_ ?_
  · rintro (_ | i) hI
    · exact .inl rfl
    have hi := hI i rfl
    by_cases hia : i = a
    · refine .inl ?_
      show (if i = a then _ else _) = _
      rw [if_pos hia, Option.elim_some, hia, F.isAncestor_iff.mpr (F.self_mem_lineage a)]
      rfl
    · refine .inr ⟨F.parent i, ?_, ?_, ?_, ?_⟩
      · show (if i = a then _ else _) = _
        rw [if_neg hia, hup i hi]
        rfl
      · intro p hp
        have := F.parent_lt hp
        omega
      · show (F.parent i).elim false (F.isAncestor a) = F.isAncestor a i
        cases hp : F.parent i with
        | none =>
          rw [eq_comm, Option.elim_none, Bool.eq_false_iff, ne_eq, F.isAncestor_iff,
            F.mem_lineage_of_none hp]
          exact Ne.symm hia
        | some p =>
          rw [Option.elim_some, Bool.eq_iff_iff, F.isAncestor_iff, F.isAncestor_iff,
            F.mem_lineage_of_some hp]
          exact ⟨.inr, fun h => h.resolve_left (Ne.symm hia)⟩
      · show (F.parent i).elim 0 (· + 1) < i + 1
        cases hp : F.parent i with
        | none => exact Nat.succ_pos i
        | some p => exact Nat.succ_lt_succ (F.parent_lt hp)
  · rintro _ ⟨⟩
    exact hi
  · exact Nat.succ_lt_succ hi

/-- A climb ends where a function that steps along the same way says. -/
theorem climb_eq {stays : Nat → Guarded Bool} (goes : Nat → Bool) (top : Nat → Nat)
    (hstays : ∀ i < F.size, stays i = .ok (goes i))
    (hroot : ∀ i, F.parent i = none → top i = i)
    (hstep : ∀ i p, F.parent i = some p → top i = if goes p then top p else i) (hi : i < F.size) :
    climb up stays F.size i = .ok (top i) := by
  refine loop_eq (· < F.size) top id ?_ hi hi
  intro i hi
  rw [hup i hi, ok_bind]
  cases hp : F.parent i with
  | none =>
    refine .inl ?_
    rw [hroot i hp]
    rfl
  | some p =>
    have hpi := F.parent_lt hp
    show (stays p >>= _ = _) ∨ ∃ s', (stays p >>= _ = _) ∧ _
    rw [hstays p (by omega), ok_bind, hstep i p hp]
    cases goes p with
    | true => exact .inr ⟨p, rfl, by omega, rfl, hpi⟩
    | false => exact .inl rfl

end Climbing

/-- What a stack is still going to visit. -/
def remaining (F : Forest) (stack : List (Nat × Bool)) : List Nat :=
  stack.flatMap fun s => if s.2 then [s.1] else F.postOrder s.1

/-- How many turns that takes: two for each node, one of which a marked node has had. -/
def turnsLeft (F : Forest) (stack : List (Nat × Bool)) : Nat :=
  (stack.map fun s => if s.2 then 1 else 2 * (F.postOrder s.1).length).sum

theorem remaining_expand (i : Nat) (stack : List (Nat × Bool)) :
    remaining F ((F.children i).map (fun c => (c, false)) ++ (i, true) :: stack)
      = remaining F ((i, false) :: stack) := by
  unfold remaining
  rw [List.flatMap_append, List.flatMap_map, List.flatMap_cons, List.flatMap_cons, if_pos rfl,
    if_neg Bool.false_ne_true, F.postOrder_eq, List.append_assoc]
  rfl

theorem turnsLeft_expand (i : Nat) (stack : List (Nat × Bool)) :
    turnsLeft F ((F.children i).map (fun c => (c, false)) ++ (i, true) :: stack)
      < turnsLeft F ((i, false) :: stack) := by
  have hchildren : ((F.children i).map fun c => 2 * (F.postOrder c).length).sum
      = 2 * ((F.children i).flatMap F.postOrder).length := by
    rw [List.length_flatMap, List.sum_map_mul_left]
  unfold turnsLeft
  rw [List.map_append, List.sum_append, List.map_map, List.map_cons, List.sum_cons, List.map_cons,
    List.sum_cons, if_pos rfl, if_neg Bool.false_ne_true, F.postOrder_eq, List.length_append,
    List.length_singleton]
  show ((F.children i).map fun c => 2 * (F.postOrder c).length).sum + (1 + _)
    < 2 * (((F.children i).flatMap F.postOrder).length + 1) + _
  omega

section Visiting

variable (hbelow : ∀ i < F.size, below i = .ok (F.children i))

include hbelow

/-- A walk with a stack visits what the stack holds and all that lies below. -/
theorem loop_descendTurn {stack visited : List Nat} {turns : Nat} (h : ∀ i ∈ stack, i < F.size)
    (hturns : (F.stackOrder stack).length < turns) :
    loop (descendTurn below) turns (stack, visited) = .ok (visited ++ F.stackOrder stack) := by
  -- What was visited and what the stack will add to it stay together.
  refine loop_eq (fun s : List Nat × List Nat => ∀ i ∈ s.1, i < F.size)
    (fun s => s.2 ++ F.stackOrder s.1) (fun s => (F.stackOrder s.1).length) ?_ h hturns
  rintro ⟨_ | ⟨i, stack⟩, visited⟩ hI
  · refine .inl ?_
    rw [Forest.stackOrder, List.append_nil]
    rfl
  obtain ⟨hi, hstack⟩ := List.forall_mem_cons.mp hI
  refine .inr ⟨(F.children i ++ stack, visited ++ [i]), ?_, ?_, ?_, ?_⟩
  · show below i >>= _ = _
    rw [hbelow i hi]
    rfl
  · intro j hj
    rcases List.mem_append.mp hj with hj | hj
    · exact (F.mem_children.mp hj).1
    · exact hstack j hj
  · rw [Forest.stackOrder, List.append_assoc, List.singleton_append]
  · rw [Forest.stackOrder, List.length_cons]
    exact Nat.lt_succ_self _

theorem descend_eq (hi : i < F.size) : descend below (F.size + 1) i = .ok (F.preOrder i) := by
  have hwhole : F.stackOrder [i] = F.preOrder i := by
    rw [F.stackOrder_eq, List.flatMap_singleton]
  rw [← hwhole]
  refine loop_descendTurn hbelow (by simpa using hi) ?_
  rw [hwhole]
  exact Nat.lt_succ_of_le (F.length_preOrder_le hi)

theorem ascend_eq (hi : i < F.size) : ascend below (2 * F.size + 1) i = .ok (F.postOrder i) := by
  have hwhole : remaining F [(i, false)] = F.postOrder i := List.append_nil _
  rw [← hwhole]
  -- A turn that puts a node back below its children changes nothing about what is still to come.
  refine loop_eq (fun s : List (Nat × Bool) × List Nat => ∀ p ∈ s.1, p.1 < F.size)
    (fun s => s.2 ++ remaining F s.1) (fun s => turnsLeft F s.1) ?_ ?_ ?_
  · rintro ⟨_ | ⟨⟨i, marked⟩, stack⟩, visited⟩ hI
    · refine .inl ?_
      show _ = Except.ok (Sum.inr (visited ++ []))
      rw [List.append_nil]
      rfl
    obtain ⟨hi, hstack⟩ := List.forall_mem_cons.mp hI
    refine .inr ?_
    cases marked with
    | true =>
      refine ⟨(stack, visited ++ [i]), rfl, hstack, ?_, ?_⟩
      · exact List.append_assoc ..
      · exact Nat.lt_add_of_pos_left Nat.one_pos
    | false =>
      refine ⟨((F.children i).map (fun c => (c, false)) ++ (i, true) :: stack, visited), ?_, ?_,
        ?_, ?_⟩
      · show (below i >>= _) = _
        rw [hbelow i hi]
        rfl
      · intro p hp
        rcases List.mem_append.mp hp with hp | hp
        · obtain ⟨c, hc, rfl⟩ := List.mem_map.mp hp
          exact (F.mem_children.mp hc).1
        · rcases List.mem_cons.mp hp with rfl | hp
          · exact hi
          · exact hstack p hp
      · exact congrArg (visited ++ ·) (remaining_expand i stack)
      · exact turnsLeft_expand i stack
  · simpa using hi
  · have hle := F.length_preOrder_le hi
    rw [(F.preOrder_perm_postOrder i).length_eq] at hle
    show 2 * (F.postOrder i).length + 0 < _
    omega

end Visiting

end Privatization.Guarded
