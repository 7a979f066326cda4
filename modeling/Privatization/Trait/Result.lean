import Privatization.Collection.OrderedMap
import Privatization.Dependence.Record
import Privatization.Trait.Statistics

/-!
# Classification results

The categories of every alias node a loop touches, with those of the memory and unknown accesses
attributed to the node.
-/

namespace Privatization

/-- Result for an estimate memory attributed to an alias node. -/
structure MemoryTrait where
  memory : EstimateId
  categories : Categories
  /-- Present when the loop recorded a dependence on this memory or a piece of it. -/
  dependence : Option DependenceRecord

/-- Result for an unknown access attributed to an alias node. -/
structure UnknownTrait where
  inst : InstId
  categories : Categories

/-- Result for an alias node: the summary of the node and its constituents. -/
structure NodeTrait where
  node : AliasNodeId
  categories : Categories
  memories : List MemoryTrait := []
  unknowns : List UnknownTrait := []

/-- Reports the node and everything attributed to it as a full dependence. -/
def NodeTrait.toDependency (t : NodeTrait) : NodeTrait :=
  { t with
    categories := t.categories.toDependency
    memories := t.memories.map fun m => { m with categories := m.categories.toDependency }
    unknowns := t.unknowns.map fun u => { u with categories := u.categories.toDependency } }

/-- The results for the alias nodes a loop touches, in the order the nodes were finished. -/
abbrev TraitMap := OrderedMap AliasNodeId NodeTrait

namespace TraitMap

/-- Stores the result for a node. -/
def record (m : TraitMap) (t : NodeTrait) : TraitMap := OrderedMap.insert m t.node t

/-- The result for an estimate memory at the first node that lists it. -/
def memory? (m : TraitMap) (em : EstimateId) : Option MemoryTrait :=
  (OrderedMap.values m).findSome? fun t => t.memories.find? (·.memory == em)

/-- The result for an unknown access at the first node that lists it. -/
def unknown? (m : TraitMap) (inst : InstId) : Option UnknownTrait :=
  (OrderedMap.values m).findSome? fun t => t.unknowns.find? (·.inst == inst)

end TraitMap

/-- Result for a loop. -/
structure LoopResult where
  traits : TraitMap
  statistics : Statistics

/-- Results for the loops of a function, outer loops first, and the sum of their statistics. -/
structure FunctionResult where
  loops : OrderedMap LoopId LoopResult := ∅
  statistics : Statistics := {}

/-- Adds the result for a loop. -/
def FunctionResult.record (r : FunctionResult) (l : LoopId) (result : LoopResult) :
    FunctionResult :=
  { loops := r.loops.insert l result, statistics := r.statistics + result.statistics }

end Privatization
