import Privatization.Facts.Draft
import Privatization.Facts.Grammar

/-!
# Loading facts

`load` turns statements into functions with all their facts attached. Each statement is one step on
the function under construction, and the first step that is refused decides the error.
-/

namespace Privatization.Facts

namespace Draft

open Statement

/-- The kind of a declared value. -/
def valueKind (b : Draft) (s : Statement) : Except StatementError ValueKind := do
  match ← s.nameAt 1 "kind" with
  | "alloca" =>
    match s.attr? "block" with
    | some d => return .alloca ⟨← word "block" d⟩
    | none => return .alloca ⟨0⟩
  | "global" => return .global
  | "argument" => return .argument
  | "load" =>
    match s.attr? "from" with
    | some d => return .load (← b.location d)
    | none => throw .loadWithoutSource
  | "call" => return .callResult
  | "other" => return .other
  | kind => throw (.unknownWord .valueKind kind)

/-- `value NAME KIND` declares a value. -/
def addValue (b : Draft) (s : Statement) : Except StatementError Draft := do
  let name ← s.nameAt 0 "value"
  if (b.function.findValue? name).isSome then throw (.declaredTwice .value name)
  let kind ← b.valueKind s
  let source ← s.sourceAttr "source"
  return { b with function := b.function.addValue { name, kind, source } }

/-- The operation of a declared instruction. -/
def operation (b : Draft) (label : String) (s : Statement) :
    Except StatementError Operation := do
  let operand : Except StatementError MemoryLocation :=
    match s.positional[2]? with
    | some d => b.location d
    | none => .error (.missingOperand label)
  match ← s.nameAt 1 "operation" with
  | "load" => return .load (← operand)
  | "store" =>
    let location ← operand
    match s.nameAttr? "value" with
    | some name => return .store location (some (← b.value name))
    | none => return .store location none
  | "call" =>
    return .call (← s.nameAt 2 "callee") (s.hasFlag "readonly") (← b.locations s "accesses")
  | "opaque" => return .effect (s.hasFlag "readonly") (← b.locations s "accesses")
  | "ptrtoint" => return .pointerToInteger (← b.value (← s.nameAt 2 "operand"))
  | "addressof" => return .addressOf (← b.value (← s.nameAt 2 "base"))
  | "other" => return .other
  | op => throw (.unknownWord .operation op)

/-- `inst LABEL OPERATION` declares an instruction. -/
def addInst (b : Draft) (s : Statement) : Except StatementError Draft := do
  let label ← s.nameAt 0 "instruction"
  if b.instLabels.contains label then throw (.declaredTwice .instruction label)
  let block ← s.wordAttr "block"
  let op ← b.operation label s
  let (function, id) := b.function.addInstruction ⟨block⟩ op
  return { b with function, instLabels := b.instLabels.insert label id }

/-- `alias LABEL` declares a node of the alias tree. -/
def addAlias (b : Draft) (s : Statement) : Except StatementError Draft := do
  let label ← s.nameAt 0 "alias node"
  if label = "top" || b.nodeLabels.contains label then throw (.declaredTwice .aliasNode label)
  let parent ←
    match s.nameAttr? "parent" with
    | some parent => b.node parent
    | none => pure AliasTree.top
  let kind ←
    match s.nameAttr? "kind" with
    | none | some "estimate" => pure AliasNodeKind.estimate
    | some "unknown" => pure AliasNodeKind.unknown
    | some kind => throw (.unknownWord .aliasNodeKind kind)
  let (t, id) ← (b.tree.addNode parent kind).mapError .model
  return { b.withTree t with nodeLabels := b.nodeLabels.insert label id }

/-- `estimate LABEL` declares an estimate memory. -/
def addEstimate (b : Draft) (s : Statement) : Except StatementError Draft := do
  let label ← s.nameAt 0 "estimate memory"
  if b.estimateLabels.contains label then throw (.declaredTwice .estimate label)
  let node ←
    match s.nameAttr? "node" with
    | some name => b.node name
    | none => throw (.missingAttr "estimate" "node")
  let pointers ← (← s.attr "ptrs").items.mapM fun d =>
    match d.name? with
    | some name => b.value name
    | none => throw (.notPointerName d.render)
  let size ←
    match s.attr? "size" with
    | none | some .unknown => pure none
    | some d => (natural "size" d).map some
  let offset ←
    match s.attr? "offset" with
    | some d => natural "offset" d
    | none => pure 0
  let parent ←
    match s.nameAttr? "parent" with
    | some parent => (b.estimate parent).map some
    | none => pure none
  let (t, id) ← (b.tree.addEstimate node pointers size offset parent).mapError .model
  return { b.withTree t with estimateLabels := b.estimateLabels.insert label id }

/-- `unknown INST NODE` attributes an unknown access to an alias node. -/
def addUnknown (b : Draft) (s : Statement) : Except StatementError Draft := do
  let inst ← b.inst (← s.nameAt 0 "instruction")
  let node ← b.node (← s.nameAt 1 "alias node")
  let t ← (b.tree.addUnknown node inst).mapError .model
  return b.withTree t

/-- `loop NAME` declares a loop. -/
def addLoop (b : Draft) (s : Statement) : Except StatementError Draft := do
  let name ← s.nameAt 0 "loop"
  let parent ←
    match s.nameAttr? "parent" with
    | some parent => (b.loop parent).map some
    | none => pure none
  let blocks ← (← s.attr "blocks").items.mapM (word "block")
  let start ← s.sourceAttr "start"
  let header ← s.wordAttr "header"
  let latch ← s.wordAttr "latch"
  let exit ← s.wordAttr "exit"
  let spec : LoopNest.LoopSpec :=
    { name, parent, header := ⟨header⟩, blocks := .ofList (blocks.map BlockId.mk),
      latch := ⟨latch⟩, exit := ⟨exit⟩, start }
  let (loops, _) ← (b.function.loops.add spec).mapError .model
  return { b with function := { b.function with loops } }

/-- `access LOOP` adds to the def-use summary of a loop. -/
def addAccess (b : Draft) (s : Statement) : Except StatementError Draft := do
  let loop ← b.loop (← s.nameAt 0 "loop")
  let explicit ← b.locations s "explicit"
  let uses ← b.locations s "use"
  let defs ← b.locations s "def"
  let mayDefs ← b.locations s "maydef"
  let unknowns ← ((s.attr? "unknowns").elim [] Datum.items).mapM fun d =>
    match d.name? with
    | some name => b.inst name
    | none => throw (.notInstruction d.render)
  let addresses ← ((s.attr? "address").elim [] Datum.items).mapM fun d =>
    match d.name? with
    | some name => b.value name
    | none => throw (.notValue d.render)
  let extend (d : DefUse) : DefUse :=
    let d := explicit.foldl DefUse.addExplicit d
    let d := uses.foldl DefUse.addUse d
    let d := defs.foldl DefUse.addDef d
    let d := mayDefs.foldl DefUse.addMayDef d
    let d := unknowns.foldl DefUse.addUnknown d
    addresses.foldl DefUse.addAddress d
  let f := b.function
  return { b with function := { f with defUse := f.defUse.update loop ∅ extend } }

/-- `live LOOP LOCATIONS` adds to the locations live after a loop. -/
def addLive (b : Draft) (s : Statement) : Except StatementError Draft := do
  let loop ← b.loop (← s.nameAt 0 "loop")
  let locations ← (s.positional[1]?.elim [] Datum.items).mapM b.location
  let f := b.function
  return { b with function := { f with live := f.live.update loop ∅ (·.insertAll locations) } }

/-- `reach NODE` gives the definitions reaching a data-flow node. What must reach may reach. -/
def setReach (b : Draft) (s : Statement) : Except StatementError Draft := do
  let node ←
    match s.positional[0]? with
    | some d => word "data-flow node" d
    | none => throw .missingFlowNode
  let must := LocationSet.ofList (← b.locations s "must")
  let may := LocationSet.ofList (← b.locations s "may")
  let defs : ReachingDefs := { must, may := may.insertAll must.locations }
  let f := b.function
  return { b with function := { f with reach := f.reach.insert ⟨node⟩ defs } }

/-- `dep SRC DST KIND` records the result of a dependence test. -/
def setDependence (b : Draft) (s : Statement) : Except StatementError Draft := do
  let src ← b.inst (← s.nameAt 0 "source instruction")
  let dst ← b.inst (← s.nameAt 1 "destination instruction")
  let kind ←
    match ← s.nameAt 2 "dependence kind" with
    | "flow" => pure DependenceKind.flow
    | "anti" => pure DependenceKind.anti
    | "output" => pure DependenceKind.output
    | "input" => pure DependenceKind.input
    | kind => throw (.unknownWord .dependenceKind kind)
  let directions ← ((s.attr? "dirs").elim [] Datum.items).mapM fun d =>
    match d.name?.bind Direction.ofString? with
    | some direction => pure direction
    | none => throw (.unknownWord .direction d.render)
  let distances ← ((s.attr? "dists").elim [] Datum.items).mapM fun d =>
    match d with
    | .number n => pure (some (Distance.constant n))
    | .name expr => pure (some (Distance.symbolic expr))
    | .unknown => pure none
    | d => throw (.unknownWord .distance d.render)
  let f := b.function
  return { b with function :=
    { f with dependences := f.dependences.insert (src, dst) { kind, directions, distances } } }

/-- `modref INST LOCATION KIND` records what an instruction may do to a location. -/
def setModRef (b : Draft) (s : Statement) : Except StatementError Draft := do
  let inst ← b.inst (← s.nameAt 0 "instruction")
  let loc ←
    match s.positional[1]? with
    | some d => b.location d
    | none => throw .missingLocation
  let name ← s.nameAt 2 "mod/ref kind"
  match ModRef.ofString? name with
  | some answer =>
    let f := b.function
    return { b with function := { f with modRefs := f.modRefs.insert (inst, loc) answer } }
  | none => throw (.unknownWord .modRefKind name)

/-- A statement inside a function. -/
def step (b : Draft) (s : Statement) : Except StatementError Draft :=
  match s.keyword with
  | "value" => b.addValue s
  | "inst" => b.addInst s
  | "alias" => b.addAlias s
  | "estimate" => b.addEstimate s
  | "unknown" => b.addUnknown s
  | "loop" => b.addLoop s
  | "access" => b.addAccess s
  | "live" => b.addLive s
  | "reach" => b.setReach s
  | "dep" => b.setDependence s
  | "modref" => b.setModRef s
  | keyword => .error (.unknownWord .statement keyword)

end Draft

/-- The functions read so far and the one under construction. -/
structure Loader where
  finished : List Function := []
  current : Option Draft := none

namespace Loader

/-- All functions, the one under construction last. -/
def functions (l : Loader) : List Function :=
  l.finished ++ (l.current.map (·.function)).toList

/-- One statement. `function NAME` ends the function under construction and begins another. -/
def step (l : Loader) (s : Statement) : Except StatementError Loader :=
  if s.keyword = "function" then
    (s.nameAt 0 "function").map fun name =>
      { finished := l.functions, current := some (.new name) }
  else
    match l.current with
    | none => .error (.outsideFunction s.keyword)
    | some b => (b.step s).map fun b => { l with current := some b }

end Loader

/-- The functions that a list of statements describes. -/
def load (statements : List Statement) : Except FactsError (List Function) :=
  (statements.foldlM (fun l s => (Loader.step l s).mapError (.refused s.line)) {}).map
    Loader.functions

/-- The functions that a text describes. -/
def read (text : String) : Except FactsError (List Function) := do
  load (← parse text)

end Privatization.Facts
