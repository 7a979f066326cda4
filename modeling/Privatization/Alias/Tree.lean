import Privatization.Collection.Forest
import Privatization.Memory.Location
import Privatization.Program.ModelError

/-!
# Alias trees

An alias tree divides the memory of a function. Its nodes hold estimate memories: objects and
parts of objects with the pointers that address them. Memory of two nodes on one path from the root
may overlap; memory of siblings never does. Unknown accesses are attributed to nodes.

A tree grows by `addNode`, `addEstimate` and `addUnknown` from the tree with a root alone. Nodes and
estimate memories record their parents; what a node contains is read off these records.
-/

namespace Privatization

/-- What an alias node stands for. -/
inductive AliasNodeKind where
  /-- The root, which may alias anything. -/
  | top
  | estimate
  /-- Groups accesses whose base could not be resolved. -/
  | unknown
  deriving DecidableEq

/-- A node of an alias tree. -/
structure AliasNode where
  kind : AliasNodeKind
  parent : Option AliasNodeId
  deriving DecidableEq

/-- An object or a part of one. All its pointers address the same bytes, which lie `offset` bytes
into its outermost object. -/
structure Estimate where
  front : ValueId
  others : List ValueId
  size : Option Nat
  offset : Nat
  parent : Option EstimateId
  node : AliasNodeId
  deriving DecidableEq

namespace Estimate

/-- Every pointer that addresses the memory. -/
def pointers (e : Estimate) : List ValueId := e.front :: e.others

/-- The memory as a location at each of its pointers. -/
def locations (e : Estimate) : List MemoryLocation := e.pointers.map fun p => ⟨p, e.size⟩

end Estimate

/-- The alias tree of a function. -/
structure AliasTree where
  nodes : Array AliasNode
  estimates : Array Estimate
  /-- Unknown accesses with their nodes, in the order they were attributed. -/
  attributions : List (InstId × AliasNodeId)
  node_parent_lt : ∀ (i : Nat) (n : AliasNode) (p : AliasNodeId),
    nodes[i]? = some n → n.parent = some p → p.index < i
  estimate_parent_lt : ∀ (i : Nat) (e : Estimate) (p : EstimateId),
    estimates[i]? = some e → e.parent = some p → p.index < i

namespace AliasTree

/-- The root of every alias tree. -/
def top : AliasNodeId := ⟨0⟩

/-- The tree that has only its root. -/
def empty : AliasTree where
  nodes := #[⟨.top, none⟩]
  estimates := #[]
  attributions := []
  node_parent_lt i n p hn hp := by
    obtain ⟨hi, rfl⟩ := Array.getElem?_eq_some_iff.mp hn
    simp only [List.size_toArray, List.length_singleton, Nat.lt_one_iff] at hi
    subst hi
    simp at hp
  estimate_parent_lt i e p he := by simp at he

instance : EmptyCollection AliasTree := ⟨empty⟩

instance : Inhabited AliasTree := ⟨empty⟩

variable (t : AliasTree)

/-- The node with a given number. -/
def node? (n : AliasNodeId) : Option AliasNode := t.nodes[n.index]?

/-- The estimate memory with a given number. -/
def estimate? (e : EstimateId) : Option Estimate := t.estimates[e.index]?

/-- The numbers of all nodes. -/
def nodeIds : List AliasNodeId := (List.range t.nodes.size).map AliasNodeId.mk

/-- The numbers of all estimate memories. -/
def estimateIds : List EstimateId := (List.range t.estimates.size).map EstimateId.mk

/-- The nodes as a forest of numbers. -/
def nodeForest : Forest where
  size := t.nodes.size
  parent i := (t.nodes[i]?.bind (·.parent)).map (·.index)
  parent_lt {i p} h := by
    simp only [Option.map_eq_some_iff, Option.bind_eq_some_iff] at h
    obtain ⟨q, ⟨n, hn, hq⟩, rfl⟩ := h
    exact t.node_parent_lt i n q hn hq

/-- The estimate memories as a forest of numbers. -/
def estimateForest : Forest where
  size := t.estimates.size
  parent i := (t.estimates[i]?.bind (·.parent)).map (·.index)
  parent_lt {i p} h := by
    simp only [Option.map_eq_some_iff, Option.bind_eq_some_iff] at h
    obtain ⟨q, ⟨e, he, hq⟩, rfl⟩ := h
    exact t.estimate_parent_lt i e q he hq

/-- Whether `a` is `n` or a node around it. -/
def isNodeAncestor (a n : AliasNodeId) : Bool := t.nodeForest.isAncestor a.index n.index

/-- Whether `a` is `e` or a memory around it. -/
def isEstimateAncestor (a e : EstimateId) : Bool := t.estimateForest.isAncestor a.index e.index

/-! ### Growing -/

/-- Adds a node below `parent`. -/
def addNode (parent : AliasNodeId) (kind : AliasNodeKind) :
    Except ModelError (AliasTree × AliasNodeId) :=
  if h : parent.index < t.nodes.size then
    if kind = .top then .error .secondTop
    else
      .ok ({ t with
        nodes := t.nodes.push ⟨kind, some parent⟩
        node_parent_lt := fun i n p hn hp => by
          rw [Array.getElem?_push] at hn
          split at hn
          next hi => cases hn; cases hp; omega
          next => exact t.node_parent_lt i n p hn hp }, ⟨t.nodes.size⟩)
  else .error (.unknownAliasNode parent)

/-- Checks that memory of `node` may be part of `parent`: the parent exists and lives in `node` or
in a node around it. -/
def checkParent (node : AliasNodeId) : Option EstimateId → Except ModelError Unit
  | none => .ok ()
  | some p =>
    match t.estimate? p with
    | none => .error (.unknownEstimate p)
    | some outer =>
      if t.isNodeAncestor outer.node node then .ok ()
      else .error (.notEnclosing p outer.node node)

theorem lt_of_checkParent {node : AliasNodeId} {parent : Option EstimateId} {p : EstimateId}
    (h : t.checkParent node parent = .ok ()) (hp : parent = some p) :
    p.index < t.estimates.size := by
  subst hp
  cases he : t.estimate? p with
  | none => simp [checkParent, he] at h
  | some outer => exact (Array.getElem?_eq_some_iff.mp he).1

/-- Adds an estimate memory to `node`. -/
def addEstimate (node : AliasNodeId) (pointers : List ValueId) (size : Option Nat) (offset : Nat)
    (parent : Option EstimateId) : Except ModelError (AliasTree × EstimateId) :=
  if node.index < t.nodes.size then
    match pointers with
    | [] => .error .noPointer
    | front :: others =>
      match h : t.checkParent node parent with
      | .error e => .error e
      | .ok () =>
        .ok ({ t with
          estimates := t.estimates.push { front, others, size, offset, parent, node }
          estimate_parent_lt := fun i e p he hp => by
            rw [Array.getElem?_push] at he
            split at he
            next hi => cases he; subst hi; exact t.lt_of_checkParent h hp
            next => exact t.estimate_parent_lt i e p he hp }, ⟨t.estimates.size⟩)
  else .error (.unknownAliasNode node)

/-- Attributes an unknown access to `node`. -/
def addUnknown (node : AliasNodeId) (inst : InstId) : Except ModelError AliasTree :=
  if node.index < t.nodes.size then
    .ok { t with attributions := t.attributions ++ [(inst, node)] }
  else .error (.unknownAliasNode node)

end AliasTree

end Privatization
