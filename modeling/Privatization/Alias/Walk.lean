import Privatization.Alias.Tree

/-!
# Walking an alias tree

What a node or an estimate memory contains, what lies around it and below it, and the orders in
which the whole tree is visited.
-/

namespace Privatization.AliasTree

variable (t : AliasTree)

/-! ### Nodes -/

/-- The node directly around a node. -/
def nodeParent? (n : AliasNodeId) : Option AliasNodeId := (t.node? n).bind (·.parent)

/-- The nodes directly below a node, in the order they were added. -/
def nodeChildren (n : AliasNodeId) : List AliasNodeId :=
  (t.nodeForest.children n.index).map AliasNodeId.mk

/-- The estimate memories of a node, in the order they were added. -/
def nodeEstimates (n : AliasNodeId) : List EstimateId :=
  t.estimateIds.filter fun e => (t.estimate? e).any (·.node == n)

/-- The unknown accesses of a node, in the order they were attributed. -/
def nodeUnknowns (n : AliasNodeId) : List InstId :=
  (t.attributions.filter (·.2 == n)).map Prod.fst

/-- A node and everything below it, parents before their children. -/
def descendants (n : AliasNodeId) : List AliasNodeId :=
  (t.nodeForest.preOrder n.index).map AliasNodeId.mk

/-- Every node, children before their parents, siblings in the order they were added. -/
def postOrder : List AliasNodeId := (t.nodeForest.postOrder top.index).map AliasNodeId.mk

/-- Nodes on one path from the root may alias; siblings never do. -/
def mayAliasNodes (a b : AliasNodeId) : Bool := t.isNodeAncestor a b || t.isNodeAncestor b a

/-! ### Estimate memories -/

/-- The memory directly around an estimate memory. -/
def estimateParent? (e : EstimateId) : Option EstimateId := (t.estimate? e).bind (·.parent)

/-- The parts an estimate memory was divided into, in the order they were added. -/
def estimateChildren (e : EstimateId) : List EstimateId :=
  (t.estimateForest.children e.index).map EstimateId.mk

/-- The alias node an estimate memory lives in. A number outside the tree is placed at the root. -/
def home (e : EstimateId) : AliasNodeId := ((t.estimate? e).map (·.node)).getD top

/-- Whether an estimate memory has no parts. -/
def isLeaf (e : EstimateId) : Bool := (t.estimateChildren e).isEmpty

/-- The outermost memory around an estimate memory. -/
def outermost (e : EstimateId) : EstimateId := ⟨t.estimateForest.root e.index⟩

/-- An estimate memory and everything below it, parents before their children. -/
def estimateDescendants (e : EstimateId) : List EstimateId :=
  (t.estimateForest.preOrder e.index).map EstimateId.mk

/-- Whichever of two memories lies around the other. -/
def enclosing? (a b : EstimateId) : Option EstimateId :=
  if t.isEstimateAncestor a b then some a
  else if t.isEstimateAncestor b a then some b
  else none

/-- The memories of a node whose parent lies outside it. -/
def nodeRoots (n : AliasNodeId) : List EstimateId :=
  (t.nodeEstimates n).filter fun e =>
    match t.estimateParent? e with
    | none => true
    | some p => t.home p != n

/-- The outermost memory around `e` that is reached without leaving the node `n`, where `e` lives
in `n`. -/
def outermostIn (n : AliasNodeId) (e : EstimateId) : EstimateId :=
  ((((t.estimateForest.lineage e.index).map EstimateId.mk).tail).takeWhile
    (fun p => t.home p == n)).getLastD e

end Privatization.AliasTree
