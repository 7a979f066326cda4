import Privatization.Alias.Lookup
import Privatization.Collection.OrderedMap
import Privatization.Dependence.Basic
import Privatization.Program.DefUse
import Privatization.Program.Value

/-!
# Functions

One function with every fact the classification reads: values, instructions, the alias tree, the
loops, and per loop or data-flow node the def-use, liveness and reaching-definition facts, with the
recorded answers of the dependence test and of mod/ref queries.
-/

namespace Privatization

/-- A function and what is known about it. -/
structure Function where
  name : String
  values : Array Value := #[]
  instructions : Array Instruction := #[]
  aliasTree : Option AliasTree := none
  loops : LoopNest := ∅
  defUse : OrderedMap LoopId DefUse := ∅
  /-- Definitions reaching the end of data-flow nodes. -/
  reach : OrderedMap FlowNodeId ReachingDefs := ∅
  /-- Locations that may be read after a loop finishes. -/
  live : OrderedMap LoopId LocationSet := ∅
  dependences : OrderedMap (InstId × InstId) Dependence := ∅
  modRefs : OrderedMap (InstId × MemoryLocation) ModRef := ∅

namespace Function

variable (f : Function)

/-! ### Values and instructions -/

/-- The value with a given number. -/
def value? (v : ValueId) : Option Value := f.values[v.index]?

/-- The first value with a given name. -/
def findValue? (name : String) : Option ValueId :=
  (f.values.findIdx? (·.name == name)).map ValueId.mk

/-- Adds a value. -/
def addValue (v : Value) : Function := { f with values := f.values.push v }

/-- The instruction with a given number. -/
def instruction? (i : InstId) : Option Instruction := f.instructions[i.index]?

/-- Adds an instruction at the end of the program order. -/
def addInstruction (block : BlockId) (op : Operation) : Function × InstId :=
  let id := InstId.mk f.instructions.size
  ({ f with instructions := f.instructions.push { id, block, op } }, id)

/-- The instructions of a loop body in program order. -/
def body (l : Loop) : List Instruction := f.instructions.toList.filter fun i => l.contains i.block

/-- The instructions that mention a value as an operand. -/
def users (v : ValueId) : List Instruction := f.instructions.toList.filter (·.uses v)

/-! ### Recorded answers -/

/-- Whether two locations may share a byte; without an alias tree any two may. -/
def mayAlias (a b : MemoryLocation) : Bool := f.aliasTree.all (·.mayAlias a b)

/-- The recorded result of the dependence test. -/
def depends : DependenceOracle := fun src dst _ => f.dependences.get? (src, dst)

/-- The answer read off the instruction's own footprint. A call or effect without known accesses
touches everything. -/
def footprint (i : Instruction) (loc : MemoryLocation) : ModRef :=
  match i.op with
  | .load location => if f.mayAlias location loc then .ref else .noModRef
  | .store location _ => if f.mayAlias location loc then .mod else .noModRef
  | .call _ readsOnly accesses | .effect readsOnly accesses =>
    if accesses.isEmpty || accesses.any (f.mayAlias · loc) then
      if readsOnly then .ref else .modRef
    else .noModRef
  | _ => .noModRef

/-- What an instruction may do to a location: a recorded answer wins over the footprint. -/
def modRef : ModRefOracle := fun i loc => (f.modRefs.get? (i.id, loc)).getD (f.footprint i loc)

end Function

end Privatization
