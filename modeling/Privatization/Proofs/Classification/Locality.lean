import Privatization.Proofs.Collection.Folds
import Privatization.Proofs.Propagation.ClosedForm

/-!
# Locality

A loop is classified from its own facts. What the classification reads of a function is listed in
`Function.AgreeOn`: of the loop its number, blocks, depth and places in the flow, the alias tree,
the kinds of values, the body with the answers recorded for it, the operations of the unknown
accesses, and what is recorded about the loop itself. Functions that agree on these give the same
result for the loop, whatever else they contain (`classifyLoop_eq_of_agreeOn`).

Each read is followed where it happens: by the collection of dependences (`collect_congr`), by the
passes (`resolve_within`), and by what comes after them, which reads neither function nor loop
(`finish_within`).
-/

namespace Privatization

/-- Two functions agree on a loop of the first and a loop of the second. The loops may differ in
name, source location and parent, and the functions in whatever is not mentioned. -/
structure Function.AgreeOn (f g : Function) (r r' : Loop) : Prop where
  id : r.id = r'.id
  header : r.header = r'.header
  blocks : r.blocks = r'.blocks
  latch : r.latch = r'.latch
  exit : r.exit = r'.exit
  depth : r.depth = r'.depth
  aliasTree : f.aliasTree = g.aliasTree
  kinds : ∀ v, (f.value? v).map (·.kind) = (g.value? v).map (·.kind)
  body : f.body r = g.body r'
  defUse : f.defUse.get? r.id = g.defUse.get? r.id
  unknowns : ∀ d, f.defUse.get? r.id = some d → ∀ i ∈ d.unknowns,
    (f.instruction? i).map (·.op) = (g.instruction? i).map (·.op)
  live : f.live.get? r.id = g.live.get? r.id
  latchDefs : f.reach.get? r.latch = g.reach.get? r.latch
  exitDefs : f.reach.get? r.exit = g.reach.get? r.exit
  dependences : ∀ i ∈ f.body r, ∀ j ∈ f.body r,
    f.dependences.get? (i.id, j.id) = g.dependences.get? (i.id, j.id)
  modRefs : ∀ i ∈ f.body r, ∀ loc, f.modRefs.get? (i.id, loc) = g.modRefs.get? (i.id, loc)

/-! ## Runs of steps that agree -/

/-- Steps that agree on all they are given make the same run. -/
theorem runSteps_congr {σ α ε : Type} {step step' : σ → α → Except ε σ} {as : List α} {s : σ}
    (h : ∀ a ∈ as, ∀ s, step s a = step' s a) : runSteps step s as = runSteps step' s as := by
  induction as generalizing s with
  | nil => rfl
  | cons a as ih =>
    obtain ⟨hfirst, hrest⟩ := List.forall_mem_cons.mp h
    unfold runSteps
    rw [hfirst]
    cases step' s a with
    | error e => rfl
    | ok s => exact ih hrest

/-! ## The collected dependences -/

namespace DependenceSource

variable {s s' : DependenceSource}

/-- The two sources give the same answers about the body of the loop. -/
structure Alike (s s' : DependenceSource) : Prop where
  tree : s.tree = s'.tree
  id : s.loop.id = s'.loop.id
  header : s.loop.header = s'.loop.header
  depth : s.loop.depth = s'.loop.depth
  ignoreLoopIndependent : s.ignoreLoopIndependent = s'.ignoreLoopIndependent
  body : s.function.body s.loop = s'.function.body s'.loop
  depends : ∀ i ∈ s.function.body s.loop, ∀ j ∈ s.function.body s.loop,
    s.depends i.id j.id s.loop = s'.depends i.id j.id s'.loop
  modRef : ∀ i ∈ s.function.body s.loop, ∀ loc, s.modRef i loc = s'.modRef i loc

namespace Alike

variable (h : s.Alike s')

include h

/-- Recording asks the tree for the memory of a location, and names the loop in its error. -/
theorem note : s.note = s'.note := by
  funext kinds marks distance m loc
  unfold DependenceSource.note
  rw [h.tree, h.id]

/-- The mark of the header is set for the same instructions. -/
theorem headerMark : s.headerMark = s'.headerMark := by
  funext i
  unfold DependenceSource.headerMark
  rw [h.header]

variable {src dst : Instruction} (hsrc : src ∈ s.function.body s.loop)
  (hdst : dst ∈ s.function.body s.loop)

include hsrc hdst

/-- Two instructions of the body are tested for the same dependence. -/
theorem addTested (srcLoc dstLoc : MemoryLocation) (m : DependenceMap) :
    s.addTested src dst srcLoc dstLoc m = s'.addTested src dst srcLoc dstLoc m := by
  unfold DependenceSource.addTested
  rw [h.depends src hsrc dst hdst, h.depth, h.ignoreLoopIndependent, h.note, h.headerMark]

/-- What is assumed of two instructions is the same, as the queries about them are. -/
theorem addAssumed (m : DependenceMap) : s.addAssumed src dst m = s'.addAssumed src dst m := by
  have huntouched : s.untouched src dst = s'.untouched src dst := by
    funext loc
    unfold DependenceSource.untouched
    rw [h.modRef src hsrc, h.modRef dst hdst]
  unfold DependenceSource.addAssumed
  rw [huntouched, h.note, h.headerMark]

omit hdst in
/-- A source contributes the same, towards instructions of the body. -/
theorem addFrom {later : List Instruction} (hlater : ∀ i ∈ later, i ∈ s.function.body s.loop)
    (m : DependenceMap) : s.addFrom (s.function.body s.loop) src later m
      = s'.addFrom (s.function.body s.loop) src later m := by
  unfold DependenceSource.addFrom
  split
  · split
    · refine foldlM_congr (fun m dst hdst => ?_) m
      cases dst.location? with
      | none => rfl
      | some dstLoc => exact h.addTested hsrc (hlater dst hdst) _ dstLoc m
    · -- Destinations that are only assumed are looked for in the whole body.
      refine foldlM_congr (fun m dst hdst => ?_) m
      exact h.addAssumed hsrc (List.mem_filter.mp hdst).1 m
  · rfl

omit hsrc hdst in
/-- All sources of the body together add the same for both scopes. -/
theorem addAll {rest : List Instruction} (hrest : ∀ i ∈ rest, i ∈ s.function.body s.loop)
    (m : DependenceMap) : s.addAll (s.function.body s.loop) rest m
      = s'.addAll (s.function.body s.loop) rest m := by
  induction rest generalizing m with
  | nil => rfl
  | cons src rest ih =>
    obtain ⟨hsrc, hrest'⟩ := List.forall_mem_cons.mp hrest
    unfold DependenceSource.addAll
    rw [h.addFrom hsrc hrest]
    cases s'.addFrom (s.function.body s.loop) src (src :: rest) m with
    | error e => rfl
    | ok m => exact ih hrest' m

end Alike

/-- Sources that answer alike about the body collect the same dependences. -/
theorem collect_congr (h : s.Alike s') : s.collect = s'.collect := by
  unfold collect
  rw [h.addAll (fun _ hi => hi), h.body]

end DependenceSource

/-! ## The passes -/

namespace Scope

variable {s : Scope} {g : Function} {r : Loop}

/-- The same facts, gathered for a loop of another function. -/
def within (s : Scope) (g : Function) (r : Loop) : Scope := { s with function := g, loop := r }

/-- The memory of a location is looked up in the tree alone. -/
theorem estimate_within (hid : s.loop.id = r.id) : (s.within g r).estimate = s.estimate := by
  funext loc
  unfold estimate
  rw [hid]
  rfl

/-- What is done about an access does not depend on where the loop stands. -/
theorem resolveAccess_within (hid : s.loop.id = r.id) :
    (s.within g r).resolveAccess = s.resolveAccess := by
  funext l loc
  unfold resolveAccess
  rw [estimate_within hid]
  rfl

/-- Of an unknown access, only its operation is read. -/
theorem resolveUnknown_within (hid : s.loop.id = r.id) {inst : InstId} (l : Ledger)
    (hop : (s.function.instruction? inst).map (·.op) = (g.instruction? inst).map (·.op)) :
    (s.within g r).resolveUnknown l inst = s.resolveUnknown l inst := by
  have hany (i : Option Instruction) : i.any (·.isReadOnlyEffect)
      = (i.map (·.op)).any fun op => Instruction.isReadOnlyEffect ⟨inst, ⟨0⟩, op⟩ := by
    cases i <;> rfl
  have htrait : (s.within g r).unknownTrait inst = s.unknownTrait inst := by
    unfold unknownTrait
    rw [hany, hany, hop]
    rfl
  unfold resolveUnknown
  rw [htrait, hid]
  rfl

/-- Whether an address escapes is read off the instructions of the body. -/
theorem letsEscape_eq (s : Scope) (v : ValueId) : s.letsEscape v
    = (s.function.body s.loop).any fun i => i.uses v && i.letsEscape v := by
  unfold letsEscape Function.users Function.body
  rw [List.any_filter, List.any_filter]
  congr 1
  funext i
  cases i.uses v <;> cases s.loop.contains i.block <;> rfl

section Agreement

variable (h : s.function.AgreeOn g s.loop r)

include h

/-- Values have the same kind in both functions, or are in neither. -/
theorem value_within (v : ValueId) : (s.function.value? v = none ∧ g.value? v = none)
    ∨ ∃ x y, s.function.value? v = some x ∧ g.value? v = some y ∧ x.kind = y.kind := by
  have hkind := h.kinds v
  cases hx : s.function.value? v <;> cases hy : g.value? v
  · exact .inl ⟨rfl, rfl⟩
  · rw [hx, hy] at hkind
    cases hkind
  · rw [hx, hy] at hkind
    cases hkind
  · rw [hx, hy] at hkind
    exact .inr ⟨_, _, rfl, rfl, Option.some.inj hkind⟩

/-- Where a pointer was loaded from is part of its kind. -/
theorem pointer?_within (loc : MemoryLocation) :
    (s.within g r).pointer? loc = s.pointer? loc := by
  unfold pointer?
  show (g.value? loc.ptr).bind _ = _
  rcases value_within h loc.ptr with ⟨hx, hy⟩ | ⟨x, y, hx, hy, hkind⟩
  · rw [hx, hy]
  · rw [hx, hy, Option.bind_some, Option.bind_some]
    unfold Value.loadedFrom?
    rw [hkind]

/-- The pass over pointers finds the same in both functions. -/
theorem resolvePointer_within : (s.within g r).resolvePointer = s.resolvePointer := by
  funext l loc
  have hpointer := pointer?_within h loc
  unfold pointer? at hpointer
  unfold resolvePointer
  rw [hpointer, estimate_within h.id]
  rfl

/-- The uses of a value are sought in the body, which is the same. -/
theorem letsEscape_within (v : ValueId) : (s.within g r).letsEscape v = s.letsEscape v := by
  rw [letsEscape_eq, letsEscape_eq, h.body]
  rfl

/-- Whether memory is exposed depends on uses in the body and on the kind of its object. -/
theorem exposes_within (ptr : ValueId) (em : EstimateId) :
    (s.within g r).exposes ptr em = s.exposes ptr em := by
  have hcontains : (s.within g r).loop.contains = s.loop.contains := by
    funext b
    show decide (b ∈ r.blocks) = decide (b ∈ s.loop.blocks)
    rw [h.blocks]
  -- An object may be an allocation in a block, which is compared with the blocks of the loop.
  have hobject (v : ValueId) : (g.value? v).any (s.within g r).outlivesIteration
      = (s.function.value? v).any s.outlivesIteration := by
    rcases value_within h v with ⟨hx, hy⟩ | ⟨x, y, hx, hy, hkind⟩
    · rw [hx, hy]
      rfl
    · rw [hx, hy, Option.any_some, Option.any_some]
      unfold outlivesIteration Value.isObject Value.allocatedIn?
      rw [hkind, hcontains]
  unfold exposes
  rw [letsEscape_within h]
  congr 1
  show ((s.tree.estimate? (s.tree.outermost em)).bind fun e => g.value? e.front).any _ = _
  cases s.tree.estimate? (s.tree.outermost em) with
  | none => rfl
  | some e => exact hobject e.front

/-- The pass over addresses finds the same in both functions. -/
theorem resolveAddress_within : (s.within g r).resolveAddress = s.resolveAddress := by
  funext l ptr
  unfold resolveAddress
  rw [estimate_within h.id]
  refine bind_congr fun em => ?_
  show (if (s.within g r).exposes ptr em = true then _ else _)
    = (if s.exposes ptr em = true then _ else _)
  rw [exposes_within h]
  rfl

/-- The passes find the same, in whichever of the two functions the loop stands. -/
theorem resolve_within (hdefUse : s.function.defUse.get? s.loop.id = some s.defUse) :
    (s.within g r).resolve = s.resolve := by
  have hunknowns (l : Ledger) : runSteps (s.within g r).resolveUnknown l s.defUse.unknowns
      = runSteps s.resolveUnknown l s.defUse.unknowns :=
    runSteps_congr fun inst hinst l =>
      resolveUnknown_within h.id l (h.unknowns s.defUse hdefUse inst hinst)
  have haccesses : (s.within g r).resolveAccesses = s.resolveAccesses := by
    -- The three passes in turn.
    funext l
    unfold resolveAccesses
    rw [resolveAccess_within h.id]
    simp only [show (s.within g r).defUse = s.defUse from rfl, hunknowns]
  funext l
  unfold resolve resolvePointers resolveAddresses
  rw [haccesses, resolvePointer_within h, resolveAddress_within h]
  rfl

end Agreement

/-! ## After the passes -/

section Finish

variable {s' : Scope} (htree : s'.tree = s.tree)

include htree

/-- Comparing entries asks for ancestry in the tree only. -/
theorem absorb_congr (id : EntryId) (em : EstimateId) (l : Ledger) (kept : List EntryId) :
    s'.absorb id em l kept = s.absorb id em l kept := by
  induction kept generalizing l with
  | nil => rfl
  | cons other rest ih =>
    unfold absorb
    simp only [ih, htree]

variable (hlatch : s'.latch = s.latch) (hexit : s'.exit = s.exit)

include hlatch hexit

/-- Finishing a node asks for the tree, and for the definitions at latch and exit where it calls for
a copy. -/
theorem finishNode_congr : s'.finishNode = s.finishNode := by
  have hkeep : s'.keep = s.keep := by
    funext acc id
    unfold keep
    simp only [absorb_congr htree]
  have hcollect : s'.collectChild = s.collectChild := by
    funext node acc child
    unfold collectChild collectEntry
    rw [htree]
  have hgeneralize : s'.generalize = s.generalize := by
    funext node l id
    unfold generalize
    rw [htree]
  have hstore : s'.storeResults = s.storeResults := by
    -- Storing reads the other components nowhere, so with these three equal both sides compute the
    -- same.
    obtain ⟨f, t, r, d, live, latch, exit⟩ := s
    obtain ⟨f', t', r', d', live', latch', exit'⟩ := s'
    obtain rfl : t' = t := htree
    obtain rfl : latch' = latch := hlatch
    obtain rfl : exit' = exit := hexit
    rfl
  funext acc node
  unfold finishNode foldDuplicates
  rw [hkeep, hcollect, hgeneralize, hstore, htree]

/-- Once the accesses are resolved, only the tree and the definitions that reach latch and exit are
read. -/
theorem finish_congr (l : Ledger) (settings : Settings) :
    s'.finish l settings = s.finish l settings := by
  unfold finish propagate
  rw [finishNode_congr htree hlatch hexit, htree]

end Finish

/-- What comes after the passes does not depend on function and loop. -/
theorem finish_within (l : Ledger) (settings : Settings) :
    (s.within g r).finish l settings = s.finish l settings := by
  have htree : (s.within g r).tree = s.tree := rfl
  exact finish_congr htree rfl rfl l settings

end Scope

/-! ## The classification -/

namespace Function.AgreeOn

variable {f g : Function} {r r' : Loop} (h : f.AgreeOn g r r')

include h

/-- Without recorded answers, the operation and the tree decide. -/
theorem footprint (i : Instruction) (loc : MemoryLocation) :
    f.footprint i loc = g.footprint i loc := by
  have hmayAlias : f.mayAlias = g.mayAlias := by
    funext a b
    unfold Function.mayAlias
    rw [h.aliasTree]
  unfold Function.footprint
  rw [hmayAlias]

/-- Instructions of the body do the same to memory in both functions. -/
theorem modRef {i : Instruction} (hi : i ∈ f.body r) (loc : MemoryLocation) :
    f.modRef i loc = g.modRef i loc := by
  unfold Function.modRef
  rw [h.modRefs i hi, h.footprint]

/-- The scopes of the loop differ in function and loop alone. -/
theorem ofLoop (t : AliasTree) :
    Scope.ofLoop g t r' = (Scope.ofLoop f t r).map (·.within g r') := by
  unfold Scope.ofLoop
  rw [← h.id, ← h.latch, ← h.exit, ← h.defUse, ← h.live, ← h.latchDefs, ← h.exitDefs]
  cases f.defUse.get? r.id with
  | none => rfl
  | some defUse =>
    cases f.live.get? r.id with
    | none => rfl
    | some live =>
      cases f.reach.get? r.latch with
      | none => rfl
      | some latch =>
        cases f.reach.get? r.exit with
        | none => rfl
        | some exit => rfl

end Function.AgreeOn

/-- A loop is classified alike in functions that agree on it, whatever else they contain: the
results are equal, and so are the errors. -/
theorem classifyLoop_eq_of_agreeOn {f g : Function} {r r' : Loop} (h : f.AgreeOn g r r')
    (settings : Settings) (t : AliasTree) :
    classifyLoop settings f t r f.depends f.modRef
      = classifyLoop settings g t r' g.depends g.modRef := by
  unfold classifyLoop
  rw [h.ofLoop]
  cases hs : Scope.ofLoop f t r with
  | error e => rfl
  | ok s =>
    obtain ⟨rfl, -, rfl, hdefUse, -⟩ := Scope.ofLoop_eq_ok hs
    have hcollect : (s.dependenceSource settings s.function.depends s.function.modRef).collect
        = ((s.within g r').dependenceSource settings g.depends g.modRef).collect := by
      refine DependenceSource.collect_congr ⟨rfl, ?_, ?_, ?_, rfl, h.body, ?_, ?_⟩
      · exact h.id
      · exact h.header
      · exact h.depth
      · exact h.dependences
      · exact fun i hi loc => h.modRef hi loc
    show ((s.dependenceSource settings s.function.depends s.function.modRef).collect >>= _)
      = ((s.within g r').dependenceSource settings g.depends g.modRef).collect >>= _
    rw [← hcollect]
    -- The dependences are the same. The passes and what follows them come next.
    refine bind_congr fun d => ?_
    rw [Scope.resolve_within h hdefUse]
    exact bind_congr fun l => congrArg Except.ok (Scope.finish_within l settings).symm

/-! The loop that writes two halves, beside a store after it that another loop contains, with facts
and answers about that store. -/

/-- The function with the store, which stands in no block of the loop. -/
def crowdedFunction : Function :=
  { halvesFunction ∅ ∅ with
    name := "crowded"
    values := #[⟨"object", .alloca ⟨0⟩, none⟩, ⟨"first", .other, none⟩, ⟨"second", .other, none⟩]
    instructions := (halvesFunction ∅ ∅).instructions.push
      ⟨⟨2⟩, ⟨3⟩, .store ⟨⟨1⟩, some 4⟩ (some ⟨0⟩)⟩
    defUse := (halvesFunction ∅ ∅).defUse.insert ⟨1⟩ { explicit := [⟨⟨1⟩, some 4⟩] }
    live := (halvesFunction ∅ ∅).live.insert ⟨1⟩ ∅
    reach := (halvesFunction ∅ ∅).reach.insert ⟨2⟩ ⟨.ofList halves, .ofList halves⟩
    dependences := OrderedMap.empty.insert (⟨2⟩, ⟨0⟩) ⟨.output, [.all], []⟩
    modRefs := OrderedMap.empty.insert (⟨2⟩, ⟨⟨1⟩, some 4⟩) .noModRef }

/-- The loop under another name, inside another loop. -/
def crowdedLoop : Loop := { twoBlocks with name := "inner", parent := some ⟨1⟩ }

/-- The loop is classified as if it stood alone. -/
theorem classifyLoop_eq_of_agreeOn_crowded :
    (halvesFunction ∅ ∅).AgreeOn crowdedFunction twoBlocks crowdedLoop
      ∧ (halvesFunction ∅ ∅).instructions.size ≠ crowdedFunction.instructions.size
      ∧ ∃ result, classifyLoop {} (halvesFunction ∅ ∅) halvesTree twoBlocks
          (halvesFunction ∅ ∅).depends (halvesFunction ∅ ∅).modRef = .ok result
        ∧ classifyLoop {} crowdedFunction halvesTree crowdedLoop
          crowdedFunction.depends crowdedFunction.modRef = .ok result := by
  have hother : ∀ i ∈ (halvesFunction ∅ ∅).body twoBlocks, i.id ≠ ⟨2⟩ := by decide +kernel
  have agree : (halvesFunction ∅ ∅).AgreeOn crowdedFunction twoBlocks crowdedLoop := by
    constructor <;> try rfl
    case kinds =>
      intro v
      have hkinds : (halvesFunction ∅ ∅).values.map (·.kind)
          = crowdedFunction.values.map (·.kind) := by decide +kernel
      unfold Function.value?
      rw [← Array.getElem?_map, ← Array.getElem?_map, hkinds]
    case unknowns =>
      intro d hd i hi
      obtain rfl := Option.some.inj hd
      cases hi
    case dependences =>
      intro i hi j _
      exact (OrderedMap.get?_insert_of_ne _ _ fun he => hother i hi (Prod.mk.inj he).1).symm
    case modRefs =>
      intro i hi loc
      exact (OrderedMap.get?_insert_of_ne _ _ fun he => hother i hi (Prod.mk.inj he).1).symm
  obtain ⟨result, hresult⟩ := exists_of_isOk (x := classifyLoop {} (halvesFunction ∅ ∅) halvesTree
    twoBlocks (halvesFunction ∅ ∅).depends (halvesFunction ∅ ∅).modRef) (by decide +kernel)
  exact ⟨agree, by decide, result, hresult,
    (classifyLoop_eq_of_agreeOn agree {} halvesTree).symm.trans hresult⟩

end Privatization
