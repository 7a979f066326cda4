import Privatization.Proofs.Alias.InRange
import Privatization.Proofs.Guarded.Forest

/-!
# Guarded walks in an alias tree

Nodes and estimate memories are records in two arrays. A guarded walk looks each record up when it
comes to it; what a record lists (children, memory, unknown accesses) is read only from a record
that was found. In a well-formed tree all these look-ups succeed for numbers that are in range, the
climbs and traversals end, and the walks give what the tree says.
-/

namespace Privatization.Guarded

section Walks

variable (t : AliasTree)

/-- The record of a node. -/
def node (n : AliasNodeId) : Guarded AliasNode := found (t.node? n)

/-- The record of a memory. -/
def estimate (e : EstimateId) : Guarded Estimate := found (t.estimate? e)

/-- The first pointer in the record of a memory. -/
def front (e : EstimateId) : Guarded ValueId := do found (← estimate t e).pointers[0]?

/-- The node a memory lives at. -/
def home (e : EstimateId) : Guarded AliasNodeId := return (← estimate t e).node

/-- The memory directly around a memory. -/
def estimateParent (e : EstimateId) : Guarded (Option EstimateId) := return (← estimate t e).parent

/-- The nodes listed as children in the record of a node. -/
def nodeChildren (n : AliasNodeId) : Guarded (List AliasNodeId) := do
  let _ ← node t n
  return t.nodeChildren n

/-- The parts listed in the record of a memory. -/
def estimateChildren (e : EstimateId) : Guarded (List EstimateId) := do
  let _ ← estimate t e
  return t.estimateChildren e

/-! ### Numbers around and below a number -/

/-- The number of the node directly around a node. -/
def nodeAbove (i : Nat) : Guarded (Option Nat) := return (← node t ⟨i⟩).parent.map (·.index)

/-- The number of the memory directly around a memory. -/
def estimateAbove (i : Nat) : Guarded (Option Nat) :=
  return (← estimateParent t ⟨i⟩).map (·.index)

/-- The numbers of the nodes directly below a node. -/
def nodesBelow (i : Nat) : Guarded (List Nat) := return (← nodeChildren t ⟨i⟩).map (·.index)

/-- The numbers of the parts of a memory. -/
def estimatesBelow (i : Nat) : Guarded (List Nat) :=
  return (← estimateChildren t ⟨i⟩).map (·.index)

/-! ### Climbs -/

/-- Whether a climb from one node meets another. The climb is bounded by the number of nodes, and
running out of steps is a failure. -/
def isNodeAncestor (a n : AliasNodeId) : Guarded Bool :=
  meets (nodeAbove t) (t.nodes.size + 1) a.index n.index

/-- Whether a climb from one memory meets another, bounded by the number of memories. -/
def isEstimateAncestor (a e : EstimateId) : Guarded Bool :=
  meets (estimateAbove t) (t.estimates.size + 1) a.index e.index

/-- Where the climb from a memory along its surrounding memory ends. -/
def outermost (e : EstimateId) : Guarded EstimateId := do
  let top ← climb (estimateAbove t) (fun _ => return true) t.estimates.size e.index
  return ⟨top⟩

/-- The same climb as long as it stays at the node. -/
def outermostIn (n : AliasNodeId) (e : EstimateId) : Guarded EstimateId := do
  let stays (p : Nat) : Guarded Bool := return (← home t ⟨p⟩) == n
  let top ← climb (estimateAbove t) stays t.estimates.size e.index
  return ⟨top⟩

/-! ### Traversals -/

/-- All nodes, children first. The stack of the traversal takes two steps for each node. -/
def postOrder : Guarded (List AliasNodeId) := do
  let visited ← ascend (nodesBelow t) (2 * t.nodes.size + 1) AliasTree.top.index
  return visited.map AliasNodeId.mk

/-- The nodes at or below a node. -/
def descendants (n : AliasNodeId) : Guarded (List AliasNodeId) := do
  let visited ← descend (nodesBelow t) (t.nodes.size + 1) n.index
  return visited.map AliasNodeId.mk

/-- A memory and all its parts. -/
def estimateDescendants (e : EstimateId) : Guarded (List EstimateId) := do
  let visited ← descend (estimatesBelow t) (t.estimates.size + 1) e.index
  return visited.map EstimateId.mk

/-! ### Questions about memory -/

/-- The outermost memory of a node. -/
def nodeRoots (n : AliasNodeId) : Guarded (List EstimateId) := do
  let _ ← node t n
  (t.nodeEstimates n).filterM fun e => do
    match ← estimateParent t e with
    | none => return true
    | some p => return (← home t p) != n

/-- The smallest memory that spans a location, the earliest among equals. -/
def find? (loc : MemoryLocation) : Guarded (Option EstimateId) := do
  let spanning ← t.estimateIds.filterM fun e => return (← estimate t e).spans loc
  let ranked ← spanning.mapM fun e => return (e, (← estimate t e).rank)
  return (AliasTree.firstLeast Prod.snd ranked).map Prod.fst

/-- Whether two locations lie in memory of nodes one of which is around the other. -/
def mayAlias (a b : MemoryLocation) : Guarded Bool := do
  match ← find? t a, ← find? t b with
  | some ea, some eb =>
    let na ← home t ea
    let nb ← home t eb
    if ← isNodeAncestor t na nb then return true else isNodeAncestor t nb na
  | _, _ => return true

/-- Whether the pieces inside the same object cover the bytes of a memory. -/
def covers (target : EstimateId) (pieces : List EstimateId) : Guarded Bool := do
  let object ← outermost t target
  let own ← pieces.filterM fun p =>
    if p = target then return true else return (← outermost t p) == object
  let ranges ← own.mapM fun p => return (← estimate t p).range
  return (← estimate t target).range.spanned ranges

end Walks

variable {t : AliasTree}

/-! ## Look-ups in range -/

/-- A node in range has a record. -/
theorem node_eq {n : AliasNodeId} (h : n.index < t.nodes.size) :
    ∃ x, t.node? n = some x ∧ node t n = .ok x :=
  exists_found h

/-- Memory in range has a record. -/
theorem estimate_eq {e : EstimateId} (h : e.index < t.estimates.size) :
    ∃ m, t.estimate? e = some m ∧ estimate t e = .ok m :=
  exists_found h

theorem front_eq {e : EstimateId} (h : e.index < t.estimates.size) :
    ∃ m, t.estimate? e = some m ∧ front t e = .ok m.front := by
  obtain ⟨m, hm, hok⟩ := estimate_eq h
  refine ⟨m, hm, ?_⟩
  rw [front, hok]
  rfl

/-- The record of memory in range names its home. -/
theorem home_eq {e : EstimateId} (h : e.index < t.estimates.size) : home t e = .ok (t.home e) := by
  obtain ⟨m, hm, hok⟩ := estimate_eq h
  rw [home, hok, AliasTree.home, hm]
  rfl

theorem estimateParent_eq {e : EstimateId} (h : e.index < t.estimates.size) :
    estimateParent t e = .ok (t.estimateParent? e) := by
  obtain ⟨m, hm, hok⟩ := estimate_eq h
  rw [estimateParent, hok, AliasTree.estimateParent?, hm]
  rfl

/-- What is around a memory is in range itself. A parent is always older. -/
theorem parent_lt {e p : EstimateId} (h : t.estimateParent? e = some p) :
    p.index < t.estimates.size := by
  have hpe := t.estimateForest.parent_lt (AliasTree.estimateForest_parent_of h)
  obtain ⟨m, hm, -⟩ := Option.bind_eq_some_iff.mp h
  exact Nat.lt_trans hpe (Array.getElem?_eq_some_iff.mp hm).1

theorem nodeChildren_eq {n : AliasNodeId} (h : n.index < t.nodes.size) :
    nodeChildren t n = .ok (t.nodeChildren n) := by
  obtain ⟨x, -, hok⟩ := node_eq h
  rw [nodeChildren, hok]
  rfl

theorem estimateChildren_eq {e : EstimateId} (h : e.index < t.estimates.size) :
    estimateChildren t e = .ok (t.estimateChildren e) := by
  obtain ⟨m, -, hok⟩ := estimate_eq h
  rw [estimateChildren, hok]
  rfl

/-- One step of a climb over nodes is one step up in their forest. -/
theorem nodeAbove_eq (i : Nat) (h : i < t.nodes.size) :
    nodeAbove t i = .ok (t.nodeForest.parent i) := by
  obtain ⟨x, hx, hok⟩ := node_eq (n := ⟨i⟩) h
  rw [nodeAbove, hok, t.nodeForest_parent ⟨i⟩, AliasTree.nodeParent?, hx]
  rfl

theorem estimateAbove_eq (i : Nat) (h : i < t.estimates.size) :
    estimateAbove t i = .ok (t.estimateForest.parent i) := by
  rw [estimateAbove, estimateParent_eq h]
  rfl

/-- What is listed below a node are its children in the forest. -/
theorem nodesBelow_eq (i : Nat) (h : i < t.nodes.size) :
    nodesBelow t i = .ok (t.nodeForest.children i) := by
  rw [nodesBelow, nodeChildren_eq h, ok_bind, AliasTree.nodeChildren, List.map_map]
  exact congrArg Except.ok (List.map_id _)

theorem estimatesBelow_eq (i : Nat) (h : i < t.estimates.size) :
    estimatesBelow t i = .ok (t.estimateForest.children i) := by
  rw [estimatesBelow, estimateChildren_eq h, ok_bind, AliasTree.estimateChildren, List.map_map]
  exact congrArg Except.ok (List.map_id _)

/-! ## Climbs and traversals -/

/-- The bounded climb over nodes answers as the tree does. -/
theorem isNodeAncestor_eq (a : AliasNodeId) {n : AliasNodeId} (h : n.index < t.nodes.size) :
    isNodeAncestor t a n = .ok (t.isNodeAncestor a n) :=
  meets_eq (F := t.nodeForest) nodeAbove_eq a.index h

theorem isEstimateAncestor_eq (a : EstimateId) {e : EstimateId} (h : e.index < t.estimates.size) :
    isEstimateAncestor t a e = .ok (t.isEstimateAncestor a e) :=
  meets_eq (F := t.estimateForest) estimateAbove_eq a.index h

/-- The climb to the outermost memory ends there. -/
theorem outermost_eq {e : EstimateId} (h : e.index < t.estimates.size) :
    outermost t e = .ok (t.outermost e) := by
  have hclimb : climb (estimateAbove t) (fun _ => return true) t.estimates.size e.index
      = .ok (t.estimateForest.root e.index) := by
    -- The climb never stops early, so it follows the lineage up to the root.
    refine climb_eq (F := t.estimateForest) estimateAbove_eq (fun _ => true)
      t.estimateForest.root (fun _ _ => rfl) ?_ ?_ h
    · intro i hi
      rw [Forest.root, t.estimateForest.lineage_of_none hi]
      rfl
    · intro i p hp
      rw [if_pos rfl]
      exact t.estimateForest.root_of_parent hp
  rw [outermost, hclimb]
  rfl

/-- The climb within a node ends at the memory the tree names. -/
theorem outermostIn_eq (n : AliasNodeId) {e : EstimateId} (h : e.index < t.estimates.size) :
    outermostIn t n e = .ok (t.outermostIn n e) := by
  have hclimb : climb (estimateAbove t) (fun p => return (← home t ⟨p⟩) == n) t.estimates.size
      e.index = .ok (t.outermostIn n e).index := by
    -- Both climbs compare the home of the parent before they go there.
    refine climb_eq (F := t.estimateForest) estimateAbove_eq (fun p => t.home ⟨p⟩ == n)
      (fun i => (t.outermostIn n ⟨i⟩).index) ?_ ?_ ?_ h
    · intro p hp
      rw [home_eq hp]
      rfl
    · intro i hi
      rw [AliasTree.outermostIn_of_root (Option.map_eq_none_iff.mp hi)]
    · intro i q hq
      obtain ⟨p, hp, rfl⟩ := Option.map_eq_some_iff.mp hq
      rw [AliasTree.outermostIn_of_parent (e := ⟨i⟩) hp, apply_ite EstimateId.index]
      exact if_congr beq_iff_eq.symm rfl rfl
  rw [outermostIn]
  show climb _ _ _ _ >>= _ = _
  rw [hclimb]
  rfl

/-- The traversal of a well-formed tree ends and lists the nodes children first. -/
theorem postOrder_eq (w : t.WellFormed) : postOrder t = .ok t.postOrder := by
  have hascend : ascend (nodesBelow t) (2 * t.nodes.size + 1) AliasTree.top.index = _ :=
    ascend_eq (F := t.nodeForest) nodesBelow_eq w.rooted
  rw [postOrder, hascend]
  rfl

/-- The traversal below a node in range ends. -/
theorem descendants_eq {n : AliasNodeId} (h : n.index < t.nodes.size) :
    descendants t n = .ok (t.descendants n) := by
  have hdescend : descend (nodesBelow t) (t.nodes.size + 1) n.index = _ :=
    descend_eq (F := t.nodeForest) nodesBelow_eq h
  rw [descendants, hdescend]
  rfl

theorem estimateDescendants_eq {e : EstimateId} (h : e.index < t.estimates.size) :
    estimateDescendants t e = .ok (t.estimateDescendants e) := by
  have hdescend : descend (estimatesBelow t) (t.estimates.size + 1) e.index = _ :=
    descend_eq (F := t.estimateForest) estimatesBelow_eq h
  rw [estimateDescendants, hdescend]
  rfl

/-! ## Questions about memory -/

/-- The outermost memory of a node in range is found, for all that is asked are parents and homes of
memory. -/
theorem nodeRoots_eq {n : AliasNodeId} (h : n.index < t.nodes.size) :
    nodeRoots t n = .ok (t.nodeRoots n) := by
  obtain ⟨x, -, hok⟩ := node_eq h
  rw [nodeRoots, hok, ok_bind]
  refine filterM_eq fun e he => ?_
  have hlt := AliasTree.mem_estimateIds_lt (List.mem_filter.mp he).1
  rw [estimateParent_eq hlt, ok_bind]
  cases hp : t.estimateParent? e with
  | none => rfl
  | some p =>
    show home t p >>= _ = _
    rw [home_eq (parent_lt hp)]
    rfl

/-- Ranks that are looked up beforehand give the same choice. -/
theorem firstLeast_ranked {α : Type} (rank : α → Nat) (as : List α) :
    AliasTree.firstLeast Prod.snd (as.map fun a => (a, rank a))
      = (AliasTree.firstLeast rank as).map fun a => (a, rank a) := by
  induction as with
  | nil => rfl
  | cons a as ih =>
    rw [List.map_cons, AliasTree.firstLeast, ih, AliasTree.firstLeast]
    cases AliasTree.firstLeast rank as with
    | none => rfl
    | some b =>
      show (if rank b < rank a then _ else _) = Option.map _ (if rank b < rank a then _ else _)
      split <;> rfl

/-- Looking a location up looks at records that are there. -/
theorem find?_eq (loc : MemoryLocation) : find? t loc = .ok (t.find? loc) := by
  have hspanning : (t.estimateIds.filterM fun e => return (← estimate t e).spans loc)
      = .ok (t.candidates loc) := by
    refine filterM_eq fun e he => ?_
    obtain ⟨m, hm, hok⟩ := estimate_eq (AliasTree.mem_estimateIds_lt he)
    rw [hok, hm]
    rfl
  have hranked : ((t.candidates loc).mapM fun e => return (e, (← estimate t e).rank))
      = .ok ((t.candidates loc).map fun e =>
        (e, ((t.estimate? e).map Estimate.rank).getD addressLimit)) := by
    refine mapM_eq fun e he => ?_
    obtain ⟨m, hm, hok⟩ := estimate_eq (AliasTree.mem_estimateIds_lt (List.mem_filter.mp he).1)
    rw [hok, hm]
    rfl
  rw [find?, hspanning, ok_bind, hranked, ok_bind, firstLeast_ranked, Option.map_map]
  exact congrArg Except.ok Option.map_id'

/-- Whether two locations may alias is answered as by the tree. -/
theorem mayAlias_eq (w : t.WellFormed) (a b : MemoryLocation) :
    mayAlias t a b = .ok (t.mayAlias a b) := by
  rw [mayAlias, find?_eq, ok_bind, find?_eq, ok_bind, AliasTree.mayAlias]
  cases ha : t.find? a with
  | none => rfl
  | some ea =>
    cases hb : t.find? b with
    | none => rfl
    | some eb =>
      show home t ea >>= _ = _
      rw [home_eq (AliasTree.find?_lt ha), ok_bind, home_eq (AliasTree.find?_lt hb), ok_bind,
        isNodeAncestor_eq _ (w.home_lt eb), ok_bind, isNodeAncestor_eq _ (w.home_lt ea)]
      show _ = Except.ok (t.isNodeAncestor _ _ || t.isNodeAncestor _ _)
      cases t.isNodeAncestor (t.home ea) (t.home eb) <;> rfl

/-- Whether pieces in range cover memory in range is answered as by the tree. -/
theorem covers_eq {target : EstimateId} {pieces : List EstimateId}
    (h : target.index < t.estimates.size) (hpieces : ∀ p ∈ pieces, p.index < t.estimates.size) :
    covers t target pieces = .ok (t.covers target pieces) := by
  have hown : (pieces.filterM fun p =>
      if p = target then return true else return (← outermost t p) == t.outermost target)
      = .ok (pieces.filter fun p => t.outermost p == t.outermost target) := by
    -- The target itself is taken without a climb; the climb would find the same object.
    refine filterM_eq fun p hp => ?_
    by_cases hpt : p = target
    · rw [if_pos hpt, hpt, beq_self_eq_true]
      rfl
    · rw [if_neg hpt, outermost_eq (hpieces p hp)]
      rfl
  have hranges (own : List EstimateId) (hown : ∀ p ∈ own, p.index < t.estimates.size) :
      (own.mapM fun p => return (← estimate t p).range)
        = .ok (own.filterMap fun p => (t.estimate? p).map (·.range)) := by
    -- The tree leaves out what it does not find, so the lists are compared piece by piece.
    induction own with
    | nil => rfl
    | cons p own ih =>
      obtain ⟨hp, hown⟩ := List.forall_mem_cons.mp hown
      obtain ⟨m, hm, hok⟩ := estimate_eq hp
      rw [List.mapM_cons, hok, ih hown, List.filterMap_cons, hm]
      rfl
  obtain ⟨m, hm, hok⟩ := estimate_eq h
  rw [covers, outermost_eq h, ok_bind, hown, ok_bind,
    hranges _ fun p hp => hpieces p (List.mem_filter.mp hp).1, ok_bind, hok, AliasTree.covers, hm]
  rfl

end Privatization.Guarded
