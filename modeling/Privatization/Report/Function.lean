import Privatization.Program.Function
import Privatization.Report.Json
import Privatization.Trait.Result

/-!
# Function reports

The result for a function in terms of source names: what a tool reads. Numbers of values, memory
and loops are replaced by the names they were declared under.
-/

namespace Privatization.Report

/-! ### Names -/

/-- The source name of the first pointer that addresses a memory. The results of a function name no
memory but its own. Out of the cache, though, a function may get the result of an earlier one of its
name: where that names memory the function lacks, the program breaks off, as
`Guarded.memoryName` does, while the name is empty here. -/
def memoryName (f : Function) (t : AliasTree) (em : EstimateId) : String :=
  (((t.estimate? em).bind fun e => f.value? e.front).map (·.name)).getD ""

/-- The size of a memory. None is given for memory the function lacks, where the program
breaks off. -/
def memorySize (t : AliasTree) (em : EstimateId) : Option Nat := (t.estimate? em).bind (·.size)

/-- Name and size of a memory between angle brackets. -/
def memoryLabel (f : Function) (t : AliasTree) (em : EstimateId) : String :=
  "<" ++ memoryName f t em ++ ", " ++ showSize (memorySize t em) ++ ">"

/-- The callee of an unknown call, otherwise the instruction itself. That is also said of an
instruction the function lacks, where the program breaks off. -/
def unknownName (f : Function) (inst : InstId) : String :=
  match f.instruction? inst with
  | some ⟨_, _, .call callee ..⟩ => callee
  | _ => toString inst

/-! ### Reports -/

/-- A memory in a report. -/
structure MemoryReport where
  name : String
  size : Option Nat
  categories : Categories
  dependence : Option DependenceRecord

/-- An unknown access in a report. -/
structure UnknownReport where
  access : String
  categories : Categories

/-- An alias node in a report. -/
structure NodeReport where
  node : String
  categories : Categories
  memories : List MemoryReport
  unknowns : List UnknownReport

/-- A loop in a report. -/
structure LoopReport where
  name : String
  start : Option String
  depth : Nat
  nodes : List NodeReport
  statistics : Option Statistics

/-- The report on a function. -/
structure FunctionReport where
  function : String
  loops : List LoopReport
  statistics : Option Statistics

/-- What a report includes. -/
structure Contents where
  unknowns : Bool := true
  statistics : Bool := false

/-- The report on an alias node. -/
def NodeReport.of (f : Function) (t : AliasTree) (c : Contents) (n : NodeTrait) : NodeReport where
  node := toString n.node
  categories := n.categories
  memories := n.memories.map fun m =>
    { name := memoryName f t m.memory, size := memorySize t m.memory,
      categories := m.categories, dependence := m.dependence }
  unknowns :=
    if c.unknowns then
      n.unknowns.map fun u => { access := unknownName f u.inst, categories := u.categories }
    else []

/-- The report on a loop. The root of the alias tree, which stands for all memory, is left out. -/
def LoopReport.of (f : Function) (t : AliasTree) (c : Contents) (l : Loop) (r : LoopResult) :
    LoopReport where
  name := l.name
  start := l.start.map toString
  depth := l.depth
  nodes := (r.traits.values.filter (·.node != AliasTree.top)).map (NodeReport.of f t c)
  statistics := if c.statistics then some r.statistics else none

/-- The loops of a result in order, with what the function knows about them. A loop the function
lacks is left out. Only the result of an earlier function of the same name can have one, and the
program breaks off at it, as `Guarded.present` does. -/
def loopsOf (f : Function) (r : FunctionResult) : List (Loop × LoopResult) :=
  r.loops.toList.filterMap fun (id, result) => (f.loops.get? id).map fun l => (l, result)

/-- The report on a function. -/
def FunctionReport.of (f : Function) (c : Contents) (r : FunctionResult) : FunctionReport where
  function := f.name
  loops :=
    match f.aliasTree with
    | some t => (loopsOf f r).map fun (l, result) => LoopReport.of f t c l result
    | none => []
  statistics := if c.statistics then some r.statistics else none

/-! ### As JSON -/

/-- Categories by their names. -/
def categoriesJson (c : Categories) : Json := .strings c.keywords

/-- The counters under their field names. -/
def statisticsJson (s : Statistics) : Json :=
  let counter (n : UInt64) : Json := .number n.toNat
  .object [
    ("readonly", counter s.readonly), ("shared", counter s.shared),
    ("private", counter s.private_), ("first_private", counter s.firstPrivate),
    ("last_private", counter s.lastPrivate),
    ("second_to_last_private", counter s.secondToLastPrivate),
    ("dynamic_private", counter s.dynamicPrivate), ("dependency", counter s.dependency),
    ("address_access", counter s.addressAccess)]

/-- The recorded kinds of a dependence record. -/
def recordJson (r : DependenceRecord) : Json :=
  .object <| r.kinds.toList.map fun k =>
    let d := r.details k
    (k.keyword, .object [
      ("flags", .strings (d.marks.toList.map DependenceMark.keyword)),
      ("distances", .strings (d.distances.toList.map toString))])

/-- A memory as JSON. -/
def MemoryReport.json (m : MemoryReport) : Json :=
  .object <|
    [("name", .string m.name), ("size", m.size.elim .null .number),
      ("traits", categoriesJson m.categories)]
    ++ Json.optional "dependence" (m.dependence.map recordJson)

/-- An unknown access as JSON. -/
def UnknownReport.json (u : UnknownReport) : Json :=
  .object [("access", .string u.access), ("traits", categoriesJson u.categories)]

/-- An alias node as JSON; the list of unknown accesses is left out where it is empty. -/
def NodeReport.json (n : NodeReport) : Json :=
  .object <|
    [("node", .string n.node), ("traits", categoriesJson n.categories),
      ("memories", .array (n.memories.map (·.json)))]
    ++ if n.unknowns.isEmpty then [] else [("unknowns", .array (n.unknowns.map (·.json)))]

/-- A loop as JSON. -/
def LoopReport.json (l : LoopReport) : Json :=
  .object <|
    [("name", .string l.name)] ++ Json.optional "start" (l.start.map .string)
    ++ [("depth", .number l.depth), ("nodes", .array (l.nodes.map (·.json)))]
    ++ Json.optional "statistics" (l.statistics.map statisticsJson)

/-- A function as JSON. -/
def FunctionReport.json (r : FunctionReport) : Json :=
  .object <|
    [("function", .string r.function), ("loops", .array (r.loops.map (·.json)))]
    ++ Json.optional "statistics" (r.statistics.map statisticsJson)

end Privatization.Report
