import Privatization.Proofs.Classification.EveryLoop
import Privatization.Proofs.Dependence.Contributions

/-!
# Missing facts

The classification of a loop looks up facts about the loop, estimate memories of locations and nodes
of unknown accesses, and fails in no other way than by a look-up. `Function.lookedFor` lists
the locations it may ask for, whatever the dependence test and the mod/ref queries answer. So an error
names something that is asked for and that is not there (`classifyLoop_eq_error`), and a function
of which every loop is `Function.Complete` is classified (`classifyWith_complete_or_lacks`).
-/

namespace Privatization

section Runs

variable {α β ε σ : Type}

/-- A chain fails in its first part or, where that succeeds, in what follows. -/
theorem bind_eq_error {x : Except ε α} {f : α → Except ε β} {e : ε} (h : x >>= f = .error e) :
    x = .error e ∨ ∃ a, x = .ok a ∧ f a = .error e := by
  cases x with
  | error e' =>
    cases h
    exact .inl rfl
  | ok a => exact .inr ⟨a, rfl, h⟩

/-- A run that stops at an error stops at a step that has it. -/
theorem runSteps_eq_error {step : σ → α → Except ε σ} {s : σ} {as : List α} {e : ε}
    (h : (runSteps step s as).2 = .error e) : ∃ a ∈ as, ∃ s', step s' a = .error e := by
  induction as generalizing s with
  | nil => cases h
  | cons a as ih =>
    unfold runSteps at h
    cases hstep : step s a with
    | error e' =>
      rw [hstep] at h
      cases h
      exact ⟨a, List.mem_cons_self, s, hstep⟩
    | ok s' =>
      rw [hstep] at h
      obtain ⟨b, hb, s'', hs''⟩ := ih h
      exact ⟨b, List.mem_cons_of_mem a hb, s'', hs''⟩

end Runs

namespace Function

variable (f : Function) (t : AliasTree) (loop : Loop)

/-- What is recorded about the accesses of the loop, or nothing. -/
def summary : DefUse := (f.defUse.get? loop.id).getD ∅

/-- The locations whose estimate memory the classification of the loop may ask for: the operands of
the memory instructions of its body, its explicit accesses and, as locations of no bytes, the
addresses. -/
def lookedFor : List MemoryLocation :=
  ((f.body loop).filter (·.touchesMemory)).flatMap (·.operands)
    ++ (f.summary loop).explicit ++ (f.summary loop).addresses.map (⟨·, some 0⟩)

/-- Every fact that the classification of the loop may ask for is there. -/
structure Complete : Prop where
  defUse : (f.defUse.get? loop.id).isSome = true
  live : (f.live.get? loop.id).isSome = true
  latch : (f.reach.get? loop.latch).isSome = true
  exit : (f.reach.get? loop.exit).isSome = true
  memory : ∀ loc ∈ f.lookedFor loop, (t.find? loc).isSome = true
  unknowns : ∀ inst ∈ (f.summary loop).unknowns, (t.findUnknown? inst).isSome = true

instance : Decidable (f.Complete t loop) :=
  decidable_of_iff (((f.defUse.get? loop.id).isSome = true ∧ (f.live.get? loop.id).isSome = true)
      ∧ ((f.reach.get? loop.latch).isSome = true ∧ (f.reach.get? loop.exit).isSome = true)
      ∧ (∀ loc ∈ f.lookedFor loop, (t.find? loc).isSome = true)
      ∧ ∀ inst ∈ (f.summary loop).unknowns, (t.findUnknown? inst).isSome = true)
    ⟨fun ⟨⟨hdefUse, hlive⟩, ⟨hlatch, hexit⟩, hmemory, hunknowns⟩ =>
      ⟨hdefUse, hlive, hlatch, hexit, hmemory, hunknowns⟩,
    fun c => ⟨⟨c.defUse, c.live⟩, ⟨c.latch, c.exit⟩, c.memory, c.unknowns⟩⟩

/-- What the error names is asked for when the loop is classified, and is not there. -/
def Lacks : ClassifyError → Prop
  | .missingDefUse id => id = loop.id ∧ f.defUse.get? id = none
  | .missingLive id => id = loop.id ∧ f.live.get? id = none
  | .missingReach id node =>
    id = loop.id ∧ (node = loop.latch ∨ node = loop.exit) ∧ f.reach.get? node = none
  | .missingEstimate id loc => id = loop.id ∧ loc ∈ f.lookedFor loop ∧ t.find? loc = none
  | .missingUnknown id inst =>
    id = loop.id ∧ inst ∈ (f.summary loop).unknowns ∧ t.findUnknown? inst = none

variable {f t loop}

/-- Operands of the memory instructions of the body are looked for. -/
theorem mem_lookedFor_of_operand {i : Instruction} {loc : MemoryLocation} (hbody : i ∈ f.body loop)
    (hmemory : i.touchesMemory = true) (hloc : loc ∈ i.operands) : loc ∈ f.lookedFor loop := by
  have hi : i ∈ (f.body loop).filter (·.touchesMemory) := List.mem_filter.mpr ⟨hbody, hmemory⟩
  have hoperand := List.mem_flatMap.mpr ⟨i, hi, hloc⟩
  simp [lookedFor, hoperand]

/-- Explicit accesses are looked for. -/
theorem mem_lookedFor_of_explicit {loc : MemoryLocation} (h : loc ∈ (f.summary loop).explicit) :
    loc ∈ f.lookedFor loop := by
  simp [lookedFor, h]

/-- Addresses are looked for, as locations of no bytes. -/
theorem mem_lookedFor_of_address {ptr : ValueId} (h : ptr ∈ (f.summary loop).addresses) :
    ⟨ptr, some 0⟩ ∈ f.lookedFor loop := by
  simp [lookedFor, h]

/-- A complete loop lacks nothing. -/
theorem Complete.not_lacks (c : f.Complete t loop) (e : ClassifyError) : ¬ f.Lacks t loop e := by
  intro h
  cases e with
  | missingDefUse id =>
    obtain ⟨rfl, hnone⟩ := h
    simpa [hnone] using c.defUse
  | missingLive id =>
    obtain ⟨rfl, hnone⟩ := h
    simpa [hnone] using c.live
  | missingReach id node =>
    obtain ⟨-, rfl | rfl, hnone⟩ := h
    · simpa [hnone] using c.latch
    · simpa [hnone] using c.exit
  | missingEstimate id loc =>
    obtain ⟨-, hloc, hnone⟩ := h
    simpa [hnone] using c.memory loc hloc
  | missingUnknown id inst =>
    obtain ⟨-, hinst, hnone⟩ := h
    simpa [hnone] using c.unknowns inst hinst

end Function

/-! ## Where each stage can fail -/

/-- A fact that is required is reported exactly as missing. -/
theorem Scope.require_eq_error {α : Type} {e e' : ClassifyError} {o : Option α}
    (h : Scope.require e o = .error e') : e' = e ∧ o = none := by
  cases o with
  | none => exact ⟨(Except.error.inj h).symm, rfl⟩
  | some a => cases h

section Stages

variable {settings : Settings} {f : Function} {t : AliasTree} {loop : Loop}
  {depends : DependenceOracle} {modRef : ModRefOracle} {e : ClassifyError}

/-- The first stage fails only where a fact about the loop is missing. -/
theorem Scope.ofLoop_eq_error (h : Scope.ofLoop f t loop = .error e) : f.Lacks t loop e := by
  unfold Scope.ofLoop at h
  rcases bind_eq_error h with hdefUse | ⟨d, -, h⟩
  · obtain ⟨rfl, hnone⟩ := Scope.require_eq_error hdefUse
    exact ⟨rfl, hnone⟩
  rcases bind_eq_error h with hlive | ⟨locs, -, h⟩
  · obtain ⟨rfl, hnone⟩ := Scope.require_eq_error hlive
    exact ⟨rfl, hnone⟩
  rcases bind_eq_error h with hlatch | ⟨latch, -, h⟩
  · obtain ⟨rfl, hnone⟩ := Scope.require_eq_error hlatch
    exact ⟨rfl, .inl rfl, hnone⟩
  rcases bind_eq_error h with hexit | ⟨exit, -, h⟩
  · obtain ⟨rfl, hnone⟩ := Scope.require_eq_error hexit
    exact ⟨rfl, .inr rfl, hnone⟩
  cases h

namespace DependenceSource

variable {s : DependenceSource} {c : Contribution} {m : DependenceMap}

/-- The location of a load or store is an operand. -/
theorem mem_operands_of_location? {i : Instruction} {loc : MemoryLocation}
    (h : i.location? = some loc) : loc ∈ i.operands := by
  unfold Instruction.location? at h
  unfold Instruction.operands
  split at h
  · rename_i hop
    rw [hop]
    exact List.mem_singleton.mpr (Option.some.inj h).symm
  · rename_i hop
    rw [hop]
    exact List.mem_singleton.mpr (Option.some.inj h).symm
  · cases h

/-- A contribution concerns an operand of a memory instruction of the body. -/
theorem mem_lookedFor_of_contributes (h : s.Contributes c) :
    c.location ∈ s.function.lookedFor s.loop := by
  cases h with
  | tested order given =>
    obtain ⟨later, htail, hdst⟩ := order
    obtain ⟨srcLoc, dstLoc, dep, kinds, ⟨hsrcLoc, hdstLoc⟩, -, -, loc, hloc, rfl⟩ :=
      mem_tested.mp given
    -- The location is that of the source or that of the destination.
    rcases hloc with rfl | rfl
    · exact Function.mem_lookedFor_of_operand (htail.subset List.mem_cons_self)
        (touchesMemory_of_location? hsrcLoc) (mem_operands_of_location? hsrcLoc)
    · exact Function.mem_lookedFor_of_operand (htail.subset hdst)
        (touchesMemory_of_location? hdstLoc) (mem_operands_of_location? hdstLoc)
  | assumed srcBody dstBody srcMemory dstMemory single given =>
    obtain ⟨loc, hloc, -, rfl⟩ := mem_assumed.mp given
    rcases hloc with hloc | hloc
    · exact Function.mem_lookedFor_of_operand srcBody srcMemory hloc
    · exact Function.mem_lookedFor_of_operand dstBody dstMemory hloc

/-- The collection fails only where an operand has no estimate memory. -/
theorem collect_eq_error (h : s.collect = .error e) : ∃ loc ∈ s.function.lookedFor s.loop,
    s.tree.find? loc = none ∧ e = .missingEstimate s.loop.id loc := by
  rw [collect_eq] at h
  obtain ⟨before, c, after, m, hsplit, -, hc⟩ := foldlM_eq_error h
  have hmem : c ∈ s.contributions := by
    rw [hsplit]
    exact List.mem_append_right _ List.mem_cons_self
  refine ⟨c.location, mem_lookedFor_of_contributes (mem_contributions.mp hmem), ?_⟩
  unfold enter note at hc
  split at hc
  next hnone => exact ⟨hnone, (Except.error.inj hc).symm⟩
  next => cases hc

end DependenceSource

namespace Scope

variable {s : Scope} {l : Ledger} {loc : MemoryLocation} {inst : InstId} {ptr : ValueId}

/-- A location without estimate memory is reported. -/
theorem estimate_eq_error (h : s.estimate loc = .error e) :
    e = .missingEstimate s.loop.id loc ∧ s.tree.find? loc = none :=
  require_eq_error h

/-- Resolving an explicit access fails only there. -/
theorem resolveAccess_eq_error (h : s.resolveAccess l loc = .error e) :
    e = .missingEstimate s.loop.id loc ∧ s.tree.find? loc = none := by
  rcases bind_eq_error h with h | ⟨em, -, h⟩
  · exact estimate_eq_error h
  · cases h

/-- Resolving an unknown access fails only where it is at no node. -/
theorem resolveUnknown_eq_error (h : s.resolveUnknown l inst = .error e) :
    e = .missingUnknown s.loop.id inst ∧ s.tree.findUnknown? inst = none := by
  rcases bind_eq_error h with h | ⟨n, -, h⟩
  · exact require_eq_error h
  · cases h

/-- Resolving a pointer fails only where the access has no estimate memory; that of the pointer may
be missing. -/
theorem resolvePointer_eq_error (h : s.resolvePointer l loc = .error e) :
    e = .missingEstimate s.loop.id loc ∧ s.tree.find? loc = none := by
  cases hem : s.tree.find? loc with
  | some em =>
    rw [resolvePointer_of_found hem] at h
    cases h
  | none =>
    rw [resolvePointer_of_missing hem] at h
    split at h
    next => exact ⟨(Except.error.inj h).symm, rfl⟩
    next => cases h

/-- Resolving an address fails only where it has no estimate memory. -/
theorem resolveAddress_eq_error (h : s.resolveAddress l ptr = .error e) :
    e = .missingEstimate s.loop.id ⟨ptr, some 0⟩ ∧ s.tree.find? ⟨ptr, some 0⟩ = none := by
  rcases bind_eq_error h with h | ⟨em, -, h⟩
  · exact estimate_eq_error h
  · dsimp only at h
    split at h <;> cases h

/-- The first pass fails at an explicit access or at an unknown one. -/
theorem resolveAccesses_eq_error (h : (s.resolveAccesses l).2 = .error e) :
    (∃ loc ∈ s.defUse.explicit, e = .missingEstimate s.loop.id loc ∧ s.tree.find? loc = none)
      ∨ ∃ inst ∈ s.defUse.unknowns, e = .missingUnknown s.loop.id inst
        ∧ s.tree.findUnknown? inst = none := by
  unfold resolveAccesses at h
  split at h
  · obtain ⟨inst, hinst, l', h⟩ := runSteps_eq_error h
    exact .inr ⟨inst, hinst, resolveUnknown_eq_error h⟩
  · obtain ⟨loc, hloc, l', h⟩ := runSteps_eq_error h
    exact .inl ⟨loc, hloc, resolveAccess_eq_error h⟩

/-- The passes fail only where a location or an unknown access of the summary has no place in the
alias tree. -/
theorem resolve_eq_error (hsummary : s.function.summary s.loop = s.defUse)
    (h : s.resolve l = .error e) : s.function.Lacks s.tree s.loop e := by
  have hexplicit {loc : MemoryLocation} (hloc : loc ∈ s.defUse.explicit)
      (h : e = .missingEstimate s.loop.id loc ∧ s.tree.find? loc = none) :
      s.function.Lacks s.tree s.loop e := by
    obtain ⟨rfl, hnone⟩ := h
    exact ⟨rfl, Function.mem_lookedFor_of_explicit (by rwa [hsummary]), hnone⟩
  unfold resolve at h
  rcases bind_eq_error h with haccesses | ⟨-, -, h⟩
  · rcases resolveAccesses_eq_error haccesses with ⟨loc, hloc, h⟩ | ⟨inst, hinst, rfl, hnone⟩
    · exact hexplicit hloc h
    · exact ⟨rfl, by rwa [hsummary], hnone⟩
  rcases bind_eq_error h with hpointers | ⟨-, -, h⟩
  · obtain ⟨loc, hloc, l', h⟩ := runSteps_eq_error hpointers
    exact hexplicit hloc (resolvePointer_eq_error h)
  rcases bind_eq_error h with haddresses | ⟨-, -, h⟩
  · obtain ⟨ptr, hptr, l', h⟩ := runSteps_eq_error haddresses
    obtain ⟨rfl, hnone⟩ := resolveAddress_eq_error h
    exact ⟨rfl, Function.mem_lookedFor_of_address (by rwa [hsummary]), hnone⟩
  cases h

end Scope

/-! ## Loops and functions -/

/-- A loop that cannot be classified lacks what its error names. -/
theorem classifyLoop_eq_error (h : classifyLoop settings f t loop depends modRef = .error e) :
    f.Lacks t loop e := by
  unfold classifyLoop at h
  rcases bind_eq_error h with hscope | ⟨s, hs, hrest⟩
  · exact Scope.ofLoop_eq_error hscope
  obtain ⟨rfl, rfl, rfl, hdefUse, -⟩ := Scope.ofLoop_eq_ok hs
  rcases bind_eq_error hrest with hcollect | ⟨m, -, hrest⟩
  · obtain ⟨loc, hloc, hnone, rfl⟩ := DependenceSource.collect_eq_error hcollect
    exact ⟨rfl, hloc, hnone⟩
  rcases bind_eq_error hrest with hresolve | ⟨l, -, hrest⟩
  · refine Scope.resolve_eq_error ?_ hresolve
    rw [Function.summary, hdefUse]
    rfl
  cases hrest

/-- The loops of a function are classified if every fact they ask for is there. If they are not,
the error names a fact that some loop asks for and that is missing; without alias tree nothing is
asked for. This is the program as a release build runs it: a debug build asserts that some of these
facts are there, and ends before it returns the error. -/
theorem classifyWith_complete_or_lacks (settings : Settings) (f : Function)
    (depends : DependenceOracle) (modRef : ModRefOracle) :
    (∀ t, f.aliasTree = some t →
        (∀ id loop, f.loops.get? id = some loop → f.Complete t loop) →
        ∃ result, classifyWith settings f depends modRef = .ok result)
      ∧ ∀ e, classifyWith settings f depends modRef = .error e →
        ∃ t, f.aliasTree = some t ∧ ∃ id loop, f.loops.get? id = some loop ∧ f.Lacks t loop e := by
  have hlacks {t : AliasTree} {e : ClassifyError} (htree : f.aliasTree = some t)
      (h : classifyWith settings f depends modRef = .error e) :
      ∃ id loop, f.loops.get? id = some loop ∧ f.Lacks t loop e := by
    rw [classifyWith_eq htree] at h
    -- The error is that of the first loop that fails.
    obtain ⟨-, id, -, loop, -, hloop, hfails, -⟩ := failsFirst_of_error h
    exact ⟨id, loop, hloop, classifyLoop_eq_error hfails⟩
  constructor
  · intro t htree hcomplete
    cases hrun : classifyWith settings f depends modRef with
    | ok result => exact ⟨result, rfl⟩
    | error e =>
      obtain ⟨id, loop, hloop, h⟩ := hlacks htree hrun
      exact absurd h ((hcomplete id loop hloop).not_lacks e)
  · intro e h
    cases htree : f.aliasTree with
    | none =>
      unfold classifyWith at h
      rw [htree] at h
      cases h
    | some t => exact ⟨t, rfl, hlacks htree h⟩

end Stages

/-- The three loops where nobody said what is live after the inner one. -/
def threeLoopsWithoutLive : Function :=
  { threeLoops with live := (halvesFunction ∅ ∅).live.insert ⟨1⟩ ∅ }

/-- With all facts the loops are classified, and without one of them the error names it. -/
theorem classifyWith_complete_or_lacks_threeLoops :
    (∃ result, classify {} threeLoops = .ok result)
      ∧ ∃ e id loop, classify {} threeLoopsWithoutLive = .error e
        ∧ threeLoopsWithoutLive.loops.get? id = some loop
        ∧ threeLoopsWithoutLive.Lacks halvesTree loop e := by
  have hcomplete (id : LoopId) (loop : Loop) (h : threeLoops.loops.get? id = some loop) :
      threeLoops.Complete halvesTree loop := by
    have hloops : ∀ loop ∈ threeLoops.loops.loops.toList, threeLoops.Complete halvesTree loop := by
      decide +kernel
    exact hloops loop (Array.mem_toList_iff.mpr (Array.mem_of_getElem? h))
  refine ⟨(classifyWith_complete_or_lacks {} threeLoops _ _).1 halvesTree rfl hcomplete, ?_⟩
  cases hrun : classify {} threeLoopsWithoutLive with
  | error e =>
    obtain ⟨t, htree, id, loop, hloop, hlacks⟩ :=
      (classifyWith_complete_or_lacks {} threeLoopsWithoutLive _ _).2 e hrun
    obtain rfl : halvesTree = t := Option.some.inj htree
    exact ⟨e, id, loop, rfl, hloop, hlacks⟩
  | ok result =>
    have hfails : (classify {} threeLoopsWithoutLive).isOk = false := by decide +kernel
    simp [hrun, Except.isOk, Except.toBool] at hfails

end Privatization
