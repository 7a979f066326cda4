import Privatization.Classification.Access
import Privatization.Classification.Coverage
import Privatization.Classification.Propagation

/-!
# Classifying loops

`classifyLoop` classifies the memory of one loop and `classify` that of every loop of a function.
Loops are independent: nothing found for one is used for another.
-/

namespace Privatization

/-- Settings of the classification. -/
structure Settings where
  /-- Drop dependences that the test reports as staying within one iteration. -/
  ignoreLoopIndependent : Bool := true
  collectStatistics : Bool := true
  deriving DecidableEq

namespace Scope

variable (s : Scope)

/-- The three passes over the def-use summary. -/
def resolve (l : Ledger) : Except ClassifyError Ledger := do
  let (l, accesses) := s.resolveAccesses l
  accesses
  let (l, pointers) := s.resolvePointers l
  pointers
  let (l, addresses) := s.resolveAddresses l
  addresses
  return l

/-- The result for a loop, from the ledger its accesses were resolved in. -/
def finish (l : Ledger) (settings : Settings) : LoopResult :=
  let (l, traits) := s.propagate l ∅
  { traits := l.forceCovered s.tree traits
    statistics := if settings.collectStatistics then l.statistics else {} }

/-- The dependences of the loop as seen by the given oracles. -/
def dependenceSource (settings : Settings) (depends : DependenceOracle) (modRef : ModRefOracle) :
    DependenceSource where
  function := s.function
  tree := s.tree
  loop := s.loop
  depends
  modRef
  ignoreLoopIndependent := settings.ignoreLoopIndependent

end Scope

/-- Classifies a single loop. -/
def classifyLoop (settings : Settings) (f : Function) (t : AliasTree) (loop : Loop)
    (depends : DependenceOracle) (modRef : ModRefOracle) : Except ClassifyError LoopResult := do
  let s ← Scope.ofLoop f t loop
  let dependences ← (s.dependenceSource settings depends modRef).collect
  let l ← s.resolve { dependences }
  return s.finish l settings

/-- Classifies a loop, then the loops inside it one after the other, and adds the results to those
found so far. -/
def classifyNest (settings : Settings) (f : Function) (t : AliasTree) (depends : DependenceOracle)
    (modRef : ModRefOracle) (r : FunctionResult) (id : LoopId) :
    Except ClassifyError FunctionResult :=
  match f.loops.get? id with
  | none => .ok r
  | some loop => do
    let result ← classifyLoop settings f t loop depends modRef
    (f.loops.children id).attach.foldlM
      (fun r c => classifyNest settings f t depends modRef r c.1) (r.record id result)
termination_by f.loops.size - id.index
decreasing_by
  obtain ⟨hlt, hsize⟩ := LoopNest.lt_of_mem_children c.2
  omega

/-- Classifies every loop of a function, outer loops first. Without alias tree there is nothing to
classify. -/
def classifyWith (settings : Settings) (f : Function) (depends : DependenceOracle)
    (modRef : ModRefOracle) : Except ClassifyError FunctionResult :=
  match f.aliasTree with
  | none => .ok {}
  | some t => f.loops.topLevel.foldlM (classifyNest settings f t depends modRef) {}

/-- Classifies every loop of a function from the answers recorded for it. -/
def classify (settings : Settings) (f : Function) : Except ClassifyError FunctionResult :=
  classifyWith settings f f.depends f.modRef

end Privatization
