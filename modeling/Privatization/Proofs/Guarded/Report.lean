import Privatization.Proofs.Guarded.Classify
import Privatization.Report.Listing

/-!
# Guarded reports

Reports and listings of the results for a function, where each name is looked up under guard: the
loop of a result, the memory it is about, the first pointer of that memory, the value behind the
pointer, the instruction of an unknown access. For results whose numbers are in range they say what
the reports of the engine say (`present_eq`).
-/

namespace Privatization.Guarded

section Reports

variable (f : Function)

/-! ## Names -/

/-- The callee of an unknown call, otherwise the instruction itself. Both are read from the
instruction that was found. -/
def unknownName (inst : InstId) : Guarded String := do
  match (← instruction f inst).op with
  | .call callee .. => return callee
  | _ => return toString inst

variable (t : AliasTree)

/-- The source name of the first pointer in the record of a memory. -/
def memoryName (em : EstimateId) : Guarded String := return (← value f (← front t em)).name

/-- Name and size of a memory between angle brackets. -/
def memoryLabel (em : EstimateId) : Guarded String := do
  let size := (← estimate t em).size
  return "<" ++ (← memoryName f t em) ++ ", " ++ showSize size ++ ">"

/-! ## Reports -/

/-- The report on a memory. -/
def memoryReport (m : MemoryTrait) : Guarded Report.MemoryReport :=
  return { name := ← memoryName f t m.memory, size := (← estimate t m.memory).size,
           categories := m.categories, dependence := m.dependence }

/-- The report on an unknown access. -/
def unknownReport (u : UnknownTrait) : Guarded Report.UnknownReport :=
  return { access := ← unknownName f u.inst, categories := u.categories }

/-- The report on an alias node. Unknown accesses that are not to be shown are not looked up. -/
def nodeReport (c : Report.Contents) (n : NodeTrait) : Guarded Report.NodeReport := do
  let memories ← n.memories.mapM (memoryReport f t)
  let unknowns ← if c.unknowns then n.unknowns.mapM (unknownReport f) else pure []
  return { node := toString n.node, categories := n.categories, memories, unknowns }

/-- The report on a loop, which is looked up in the function by its number. -/
def loopReport (c : Report.Contents) (p : LoopId × LoopResult) : Guarded Report.LoopReport := do
  let nodes ← (p.2.traits.values.filter (·.node != AliasTree.top)).mapM (nodeReport f t c)
  let l ← region f p.1
  return { name := l.name, start := l.start.map toString, depth := l.depth, nodes,
           statistics := if c.statistics then some p.2.statistics else none }

/-! ## Listings -/

/-- The labels of all memory and unknown accesses of a node under a category. -/
def members (p : Report.Presentation) (category : Category) (n : NodeTrait) :
    Guarded (List String) := do
  let memories ← (n.memories.filter fun m => Report.isListed category m.categories).mapM
    fun m => memoryLabel f t m.memory
  let unknowns ← if p.contents.unknowns then
      (n.unknowns.filter fun u => Report.isListed category u.categories).mapM
        fun u => return "<" ++ (← unknownName f u.inst) ++ ">"
    else pure []
  return memories ++ unknowns

/-- The lines on a category, one for each node that lists something under it. -/
def categoryLines (p : Report.Presentation) (l : Report.Layout) (nodes : List NodeTrait)
    (category : Category) : Guarded String := do
  let listed ← (nodes.filter (·.categories.has category)).mapM (members f t p category)
  match listed.filter (!·.isEmpty) with
  | [] => return ""
  | rows =>
    return l.paintedLine .cyan (" " ++ category.keyword ++ ":")
      ++ String.join (rows.map fun row => l.line ("  " ++ " ".intercalate row))

/-- The lines on a loop. -/
def loopLines (p : Report.Presentation) (q : LoopId × LoopResult) : Guarded String := do
  let loop ← region f q.1
  let l := p.layout.atLevel loop.depth
  let label := (loop.start.map toString).getD loop.name
  let nodes := q.2.traits.values.filter (·.node != AliasTree.top)
  return l.paintedLine .yellow label
    ++ String.join (← Category.all.mapM (categoryLines f t p l nodes))

end Reports

section Functions

variable (f : Function)

/-- The report on a function. Results need an alias tree, so there are none without. -/
def functionReport (c : Report.Contents) (r : FunctionResult) : Guarded Report.FunctionReport := do
  let loops ← match f.aliasTree with
    | some t => r.loops.toList.mapM (loopReport f t c)
    | none => pure []
  return { function := f.name, loops,
           statistics := if c.statistics then some r.statistics else none }

/-- The listing of a function. -/
def listing (p : Report.Presentation) (r : FunctionResult) : Guarded String := do
  let loops ← match f.aliasTree with
    | some t => r.loops.toList.mapM (loopLines f t p)
    | none => pure []
  return p.layout.heading f.name ++ String.join loops
    ++ if p.contents.statistics then Report.statisticsLines p.layout r.statistics else ""

/-- The results for a function in the format that is asked for. It fails where a result names a
loop, memory or an instruction that the function lacks, as the result for another function may. -/
def present (p : Report.Presentation) (r : FunctionResult) : Guarded String :=
  match p.format with
  | .text => listing f p r
  | .json => return (← functionReport f p.contents r).json.pretty ++ "\n"

end Functions

/-! ## Names in range -/

variable {f : Function} {t : AliasTree}

/-- An instruction in range has a name. -/
theorem unknownName_eq {inst : InstId} (h : inst.index < f.instructions.size) :
    unknownName f inst = .ok (Report.unknownName f inst) := by
  obtain ⟨⟨id, block, op⟩, hi, hok⟩ := instruction_eq h
  rw [unknownName, hok, ok_bind, Report.unknownName, hi]
  cases op <;> rfl

section Memory

variable (k : f.InRange) (ht : f.aliasTree = some t) {em : EstimateId}
  (h : em.index < t.estimates.size)

include k ht h

/-- Memory in range has a name: its pointers are values of the function. -/
theorem memoryName_eq : memoryName f t em = .ok (Report.memoryName f t em) := by
  obtain ⟨m, hm, hfront⟩ := front_eq h
  obtain ⟨v, hv, hvalue⟩ := value_eq (k.fronts t ht m (Array.mem_of_getElem? hm))
  rw [memoryName, hfront, ok_bind, hvalue, Report.memoryName, hm, Option.bind_some, hv]
  rfl

theorem memoryLabel_eq : memoryLabel f t em = .ok (Report.memoryLabel f t em) := by
  obtain ⟨m, hm, hok⟩ := estimate_eq h
  rw [memoryLabel, hok, ok_bind, memoryName_eq k ht h, ok_bind, Report.memoryLabel,
    Report.memorySize, hm]
  rfl

end Memory

/-! ## Results in range -/

section Results

variable (k : f.InRange) (ht : f.aliasTree = some t)

include k ht

/-- A node is reported if all memory and instructions it names are in range. -/
theorem nodeReport_eq (c : Report.Contents) {n : NodeTrait} (hn : NamesKnown f t n) :
    nodeReport f t c n = .ok (.of f t c n) := by
  have hmemories : n.memories.mapM (memoryReport f t) = .ok (n.memories.map fun m =>
      { name := Report.memoryName f t m.memory, size := Report.memorySize t m.memory,
        categories := m.categories, dependence := m.dependence }) := by
    refine mapM_eq fun m hm => ?_
    obtain ⟨e, he, hok⟩ := estimate_eq (hn.1 m hm)
    rw [memoryReport, memoryName_eq k ht (hn.1 m hm), ok_bind, hok, Report.memorySize, he]
    rfl
  have hunknowns : n.unknowns.mapM (unknownReport f) = .ok (n.unknowns.map fun u =>
      { access := Report.unknownName f u.inst, categories := u.categories }) := by
    refine mapM_eq fun u hu => ?_
    rw [unknownReport, unknownName_eq (hn.2 u hu)]
    rfl
  rw [nodeReport, hmemories, hunknowns, Report.NodeReport.of]
  cases c.unknowns <;> rfl

theorem members_eq (p : Report.Presentation) (category : Category) {n : NodeTrait}
    (hn : NamesKnown f t n) :
    members f t p category n = .ok (Report.members f t p category n) := by
  have hmemories : ((n.memories.filter fun m => Report.isListed category m.categories).mapM
      fun m => memoryLabel f t m.memory)
      = .ok ((n.memories.filter fun m => Report.isListed category m.categories).map
        fun m => Report.memoryLabel f t m.memory) :=
    mapM_eq fun m hm => memoryLabel_eq k ht (hn.1 m (List.mem_filter.mp hm).1)
  have hunknowns : ((n.unknowns.filter fun u => Report.isListed category u.categories).mapM
      fun u => return "<" ++ (← unknownName f u.inst) ++ ">")
      = .ok ((n.unknowns.filter fun u => Report.isListed category u.categories).map
        fun u => "<" ++ Report.unknownName f u.inst ++ ">") := by
    refine mapM_eq fun u hu => ?_
    rw [unknownName_eq (hn.2 u (List.mem_filter.mp hu).1)]
    rfl
  rw [members, hmemories, hunknowns, Report.members]
  cases p.contents.unknowns <;> rfl

/-- The lines on a category name what is in range. -/
theorem categoryLines_eq (p : Report.Presentation) (l : Report.Layout) {nodes : List NodeTrait}
    (hnodes : ∀ n ∈ nodes, NamesKnown f t n) (category : Category) :
    categoryLines f t p l nodes category = .ok (Report.categoryLines f t p l nodes category) := by
  have hlisted : (nodes.filter (·.categories.has category)).mapM (members f t p category)
      = .ok ((nodes.filter (·.categories.has category)).map (Report.members f t p category)) :=
    mapM_eq fun n hn => members_eq k ht p category (hnodes n (List.mem_filter.mp hn).1)
  rw [categoryLines, hlisted, ok_bind, Report.categoryLines]
  cases ((nodes.filter (·.categories.has category)).map (Report.members f t p category)).filter
    (!·.isEmpty) <;> rfl

omit k ht in
/-- The nodes that are shown name what is in range, as all nodes of the result do. -/
theorem names_of_reported {m : TraitMap} (h : TraitsKnown f t m) {n : NodeTrait}
    (hn : n ∈ m.values.filter (·.node != AliasTree.top)) : NamesKnown f t n := by
  obtain ⟨p, hp, rfl⟩ := List.mem_map.mp (List.mem_filter.mp hn).1
  exact h p hp

/-- A loop of the function is reported as the engine reports it. -/
theorem loopReport_eq (c : Report.Contents) {p : LoopId × LoopResult} {l : Loop}
    (hl : f.loops.get? p.1 = some l) (hp : TraitsKnown f t p.2.traits) :
    loopReport f t c p = .ok (.of f t c l p.2) := by
  have hnodes : (p.2.traits.values.filter (·.node != AliasTree.top)).mapM (nodeReport f t c)
      = .ok ((p.2.traits.values.filter (·.node != AliasTree.top)).map (.of f t c)) :=
    mapM_eq fun n hn => nodeReport_eq k ht c (names_of_reported hp hn)
  rw [loopReport, hnodes, ok_bind, region, hl]
  rfl

theorem loopLines_eq (p : Report.Presentation) {q : LoopId × LoopResult} {l : Loop}
    (hl : f.loops.get? q.1 = some l) (hq : TraitsKnown f t q.2.traits) :
    loopLines f t p q = .ok (Report.loopLines f t p l q.2) := by
  rw [loopLines, region, hl, found_some, ok_bind]
  dsimp only
  rw [mapM_eq fun category _ => categoryLines_eq k ht p _ (fun n hn => names_of_reported hq hn)
    category]
  rfl

omit k ht in
/-- Something is made of every result together with its loop. -/
theorem mapM_loopsOf {α : Type} {r : FunctionResult} (h : Reported f t r)
    {make : LoopId × LoopResult → Guarded α} {g : Loop × LoopResult → α}
    (hmake : ∀ p l, f.loops.get? p.1 = some l → TraitsKnown f t p.2.traits →
      make p = .ok (g (l, p.2))) :
    r.loops.toList.mapM make = .ok ((Report.loopsOf f r).map g) := by
  unfold Reported at h
  unfold Report.loopsOf
  generalize r.loops.toList = ps at h
  -- The engine leaves out a result whose loop it does not find; here there is none.
  induction ps with
  | nil => rfl
  | cons p ps ih =>
    obtain ⟨⟨hid, hknown⟩, hps⟩ := List.forall_mem_cons.mp h
    -- So the first result keeps its place in the list.
    obtain ⟨l, hl, -⟩ := region_eq hid
    obtain ⟨id, result⟩ := p
    rw [List.mapM_cons, hmake (id, result) l hl hknown, ih hps, List.filterMap_cons]
    dsimp only
    rw [hl]
    rfl

end Results

/-! ## Functions -/

section Functions

variable (k : f.InRange) {r : FunctionResult}
  (hr : ∀ t, f.aliasTree = some t → Reported f t r)

include k hr

/-- A result in range is reported as the engine reports it. -/
theorem functionReport_eq (c : Report.Contents) : functionReport f c r = .ok (.of f c r) := by
  unfold functionReport Report.FunctionReport.of
  cases ht : f.aliasTree with
  | none => rfl
  | some t =>
    dsimp only
    rw [mapM_loopsOf (hr t ht) (g := fun q => .of f t c q.1 q.2)
      fun p l hl hp => loopReport_eq k ht c hl hp]
    rfl

/-- Its listing is that of the engine, too. -/
theorem listing_eq (p : Report.Presentation) : listing f p r = .ok (Report.listing f p r) := by
  unfold listing Report.listing
  cases ht : f.aliasTree with
  | none => rfl
  | some t =>
    dsimp only
    rw [mapM_loopsOf (hr t ht) (g := fun q => Report.loopLines f t p q.1 q.2)
      fun q l hl hq => loopLines_eq k ht p hl hq]
    rfl

/-- A guarded report on results in range says what the engine's report says. -/
theorem present_eq (p : Report.Presentation) : present f p r = .ok (Report.present f p r) := by
  unfold present Report.present
  cases p.format with
  | text => exact listing_eq k hr p
  | json =>
    dsimp only
    rw [functionReport_eq k hr]
    rfl

end Functions

end Privatization.Guarded
