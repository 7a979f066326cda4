import Privatization.Alias.Cover
import Privatization.Classification.Ledger

/-!
# Coverage

Where the loop accesses by name every byte of the memory of a node, what lies below the node may
overlap that memory under another name, and no finer classification than a dependence is sound for
it.
-/

namespace Privatization

/-- Whether the memory accessed by name in a node spans all memory of the node. -/
def AliasTree.isSpanned (t : AliasTree) (accessed : List EstimateId) (n : AliasNodeId) : Bool :=
  let roots := t.nodeRoots n
  let pieces := accessed.filter fun em => t.home em == n
  !roots.isEmpty && roots.all fun root => t.covers root pieces

/-- The nodes with a result whose memory is spanned by what the loop accesses by name in them. -/
def Ledger.coveredNodes (l : Ledger) (t : AliasTree) (m : TraitMap) : List AliasNodeId :=
  t.nodeIds.filter fun n =>
    ((t.node? n).any (·.kind == .estimate) && m.contains n)
      && t.isSpanned l.explicitlyAccessed n

namespace TraitMap

/-- Reports a node as a full dependence unless it is untouched. -/
def force (m : TraitMap) (n : AliasNodeId) : TraitMap :=
  OrderedMap.modify m n fun t => if t.categories.has .noAccess then t else t.toDependency

end TraitMap

/-- Reports everything below the covered nodes as a full dependence. -/
def Ledger.forceCovered (l : Ledger) (t : AliasTree) (m : TraitMap) : TraitMap :=
  (l.coveredNodes t m).foldl (fun m n =>
    ((t.nodeChildren n).flatMap t.descendants).foldl TraitMap.force m) m

end Privatization
