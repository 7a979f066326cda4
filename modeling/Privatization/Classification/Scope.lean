import Privatization.Program.Function

/-!
# The scope of a classification

The facts that the classification of one loop reads, gathered before it starts. A fact that is
missing is an error that names the loop and what is missing.
-/

namespace Privatization

/-- Why a loop cannot be classified. -/
inductive ClassifyError where
  | missingDefUse (loop : LoopId)
  | missingLive (loop : LoopId)
  | missingReach (loop : LoopId) (node : FlowNodeId)
  | missingEstimate (loop : LoopId) (location : MemoryLocation)
  | missingUnknown (loop : LoopId) (inst : InstId)
  deriving DecidableEq

/-- The wording of a classification error. -/
def ClassifyError.message : ClassifyError → String
  | missingDefUse loop => s!"{loop}: def-use summary is missing"
  | missingLive loop => s!"{loop}: live memory is missing"
  | missingReach loop node => s!"{loop}: reach definitions at {node} are missing"
  | missingEstimate loop location => s!"{loop}: no estimate memory for {location}"
  | missingUnknown loop inst => s!"{loop}: unknown access {inst} is not in the alias tree"

/-- The facts one loop is classified from. -/
structure Scope where
  function : Function
  tree : AliasTree
  loop : Loop
  defUse : DefUse
  /-- Locations that may be read after the loop. -/
  live : LocationSet
  /-- Definitions reaching the backward branch. -/
  latch : ReachingDefs
  /-- Definitions reaching the loop exit. -/
  exit : ReachingDefs

namespace Scope

/-- A fact that must be there. -/
def require {α : Type} (e : ClassifyError) : Option α → Except ClassifyError α
  | some a => .ok a
  | none => .error e

/-- Gathers the facts for a loop. -/
def ofLoop (function : Function) (tree : AliasTree) (loop : Loop) :
    Except ClassifyError Scope := do
  let defUse ← require (.missingDefUse loop.id) (function.defUse.get? loop.id)
  let live ← require (.missingLive loop.id) (function.live.get? loop.id)
  let latch ← require (.missingReach loop.id loop.latch) (function.reach.get? loop.latch)
  let exit ← require (.missingReach loop.id loop.exit) (function.reach.get? loop.exit)
  return { function, tree, loop, defUse, live, latch, exit }

/-- The estimate memory of a location. -/
def estimate (s : Scope) (loc : MemoryLocation) : Except ClassifyError EstimateId :=
  require (.missingEstimate s.loop.id loc) (s.tree.find? loc)

end Scope

end Privatization
