import Privatization.Classification.Dependences
import Privatization.Proofs.Guarded.Tree

/-!
# Guarded collection of dependences

The dependences of a loop, with every memory looked up in the alias tree under guard, for the
answers that a function records itself. The memory the dependences are kept under is in range.
-/

namespace Privatization.Guarded

/-! ## Functions -/

section Functions

variable (f : Function)

/-- The value with a number. -/
def value (v : ValueId) : Guarded Value := found (f.value? v)

/-- The instruction with a number. -/
def instruction (i : InstId) : Guarded Instruction := found (f.instruction? i)

/-- The loop with a number. -/
def region (id : LoopId) : Guarded Loop := found (f.loops.get? id)

/-- Whether two locations may share a byte; without an alias tree any two may. -/
def mayShare (a b : MemoryLocation) : Guarded Bool :=
  match f.aliasTree with
  | none => return true
  | some t => mayAlias t a b

/-- Whether a call or effect with the given accesses may touch a location. -/
def mayTouch (accesses : List MemoryLocation) (loc : MemoryLocation) : Guarded Bool :=
  if accesses.isEmpty then return true else accesses.anyM fun a => mayShare f a loc

/-- How an instruction may access a location, as far as its operation tells. -/
def footprint (i : Instruction) (loc : MemoryLocation) : Guarded ModRef :=
  match i.op with
  | .load location => return if ← mayShare f location loc then .ref else .noModRef
  | .store location _ => return if ← mayShare f location loc then .mod else .noModRef
  | .call _ readsOnly accesses | .effect readsOnly accesses =>
    return if ← mayTouch f accesses loc then if readsOnly then .ref else .modRef else .noModRef
  | _ => return .noModRef

/-- How an instruction may access a location: what is recorded, otherwise what its
operation tells. -/
def modRef (i : Instruction) (loc : MemoryLocation) : Guarded ModRef :=
  match f.modRefs.get? (i.id, loc) with
  | some answer => return answer
  | none => footprint f i loc

end Functions

/-! ## The dependences of a loop -/

/-- The memory of a location, which a loop must find. -/
def locate (t : AliasTree) (loop : LoopId) (loc : MemoryLocation) : Guarded EstimateId := do
  match ← find? t loc with
  | some em => return em
  | none => throw (.reported (.missingEstimate loop loc))

section Collecting

variable (s : DependenceSource)

/-- Records a dependence for the memory of a location. -/
def note (kinds : CarriedKinds) (marks : DependenceMarks) (distance : Option Distance)
    (m : DependenceMap) (loc : MemoryLocation) : Guarded DependenceMap := do
  let em ← locate s.tree s.loop.id loc
  return m.update em ∅ (·.update kinds marks distance)

/-- Records the dependence that the test finds between two accesses, for the memory of both. -/
def addTested (src dst : Instruction) (srcLoc dstLoc : MemoryLocation) (m : DependenceMap) :
    Guarded DependenceMap :=
  match s.depends src.id dst.id s.loop with
  | none => return m
  | some dep =>
    match dep.carried? s.loop.depth s.ignoreLoopIndependent with
    | none => return m
    | some kinds =>
      [srcLoc, dstLoc].foldlM
        (note s kinds ({.loadStore} ∪ s.headerMark src) (dep.distance? s.loop.depth)) m

/-- Whether one of two instructions does not access a location. -/
def untouched (src dst : Instruction) (loc : MemoryLocation) : Guarded Bool := do
  if (← modRef s.function src loc).isNoModRef then return true
  else return (← modRef s.function dst loc).isNoModRef

/-- Records that two instructions may depend on each other in every way, for all locations both may
access. -/
def addAssumed (src dst : Instruction) (m : DependenceMap) : Guarded DependenceMap :=
  let cause : DependenceMarks := if src.isCall || dst.isCall then {.call} else {.unknown}
  let marks := cause ∪ {.may, .unknownDistance} ∪ s.headerMark src
  (src.operands ++ dst.operands).foldlM (fun m loc => do
    if ← untouched s src dst loc then return m else note s .univ marks none m loc) m

/-- The part of a body from a position on. -/
def suffix (body : List Instruction) (i : Nat) : Guarded (List Instruction) :=
  if i ≤ body.length then return body.drop i else throw .outOfRange

/-- What the instruction at position `i` contributes as the source of dependences. -/
def addFrom (body : List Instruction) (m : DependenceMap) (src : Instruction) (i : Nat) :
    Guarded DependenceMap :=
  if src.touchesMemory then
    match src.location? with
    | some srcLoc => do
      (← suffix body i).foldlM (fun m dst =>
        match dst.location? with
        | some dstLoc => addTested s src dst srcLoc dstLoc m
        | none => return m) m
    | none => (body.filter (·.touchesMemory)).foldlM (fun m dst => addAssumed s src dst m) m
  else return m

/-- The dependences of a loop: every instruction of its body is taken as a source, in order. -/
def collect : Guarded DependenceMap :=
  let body := s.function.body s.loop
  body.zipIdx.foldlM (fun m p => addFrom s body m p.1 p.2) ∅

end Collecting

/-! ## The answers of a function -/

section Answers

variable {f : Function} (w : ∀ t, f.aliasTree = some t → t.WellFormed)

include w

theorem mayShare_eq (a b : MemoryLocation) : mayShare f a b = .ok (f.mayAlias a b) := by
  unfold mayShare Function.mayAlias
  cases ht : f.aliasTree with
  | none => rfl
  | some t => exact mayAlias_eq (w t ht) a b

/-- Whether an instruction may touch a location is answered as by the function. -/
theorem mayTouch_eq (accesses : List MemoryLocation) (loc : MemoryLocation) :
    mayTouch f accesses loc = .ok (accesses.isEmpty || accesses.any (f.mayAlias · loc)) := by
  unfold mayTouch
  cases accesses.isEmpty with
  | true => rfl
  | false => exact anyM_eq fun a _ => mayShare_eq w a loc

/-- How an instruction may access a location is found without failing. -/
theorem footprint_eq (i : Instruction) (loc : MemoryLocation) :
    footprint f i loc = .ok (f.footprint i loc) := by
  obtain ⟨id, block, op⟩ := i
  cases op with
  | load location =>
    show mayShare f location loc >>= _ = _
    rw [mayShare_eq w]
    rfl
  | store location stored =>
    show mayShare f location loc >>= _ = _
    rw [mayShare_eq w]
    rfl
  | call callee readsOnly accesses =>
    show mayTouch f accesses loc >>= _ = _
    rw [mayTouch_eq w]
    rfl
  | effect readsOnly accesses =>
    show mayTouch f accesses loc >>= _ = _
    rw [mayTouch_eq w]
    rfl
  | pointerToInteger operand => rfl
  | addressOf base => rfl
  | other => rfl

/-- A mod/ref query is answered without failing. -/
theorem modRef_eq (i : Instruction) (loc : MemoryLocation) :
    modRef f i loc = .ok (f.modRef i loc) := by
  unfold modRef Function.modRef
  cases f.modRefs.get? (i.id, loc) with
  | some answer => rfl
  | none => exact footprint_eq w i loc

end Answers

/-! ## The collection mirrors that of the engine -/

/-- The memory that dependences are recorded for is in range. -/
def Known (t : AliasTree) (m : DependenceMap) : Prop := ∀ p ∈ m.toList, p.1.index < t.estimates.size

/-- A location is found in both, or missed in both. -/
theorem locate_mirrors (t : AliasTree) (loop : LoopId) (loc : MemoryLocation) :
    Mirrors (fun em em' => em = em' ∧ em.index < t.estimates.size) (locate t loop loc)
      (Scope.require (.missingEstimate loop loc) (t.find? loc)) := by
  rw [locate, find?_eq, ok_bind]
  cases hem : t.find? loc with
  | none => exact .error _
  | some em => exact .ok ⟨rfl, AliasTree.find?_lt hem⟩

/-- The maps of both runs are the same, and their memory is in range. -/
def SameKnown (t : AliasTree) (m m' : DependenceMap) : Prop := m = m' ∧ Known t m

section Mirrors

variable {s : DependenceSource}

/-- Recording is mirrored, and the memory recorded for is in range since it was found. -/
theorem note_mirrors {kinds : CarriedKinds} {marks : DependenceMarks} {distance : Option Distance}
    {m m' : DependenceMap} (h : SameKnown s.tree m m') (loc : MemoryLocation) :
    Mirrors (SameKnown s.tree) (note s kinds marks distance m loc)
      (s.note kinds marks distance m' loc) := by
  obtain ⟨rfl, hknown⟩ := h
  have hnote : s.note kinds marks distance m loc
      = Scope.require (.missingEstimate s.loop.id loc) (s.tree.find? loc) >>= fun em =>
        .ok (m.update em ∅ (·.update kinds marks distance)) := by
    unfold DependenceSource.note
    cases s.tree.find? loc <;> rfl
  rw [note, hnote]
  refine (locate_mirrors ..).bind ?_
  rintro em _ ⟨rfl, hem⟩
  refine .ok ⟨rfl, fun p hp => ?_⟩
  rcases OrderedMap.mem_toList_insert hp with rfl | hp
  · exact hem
  · exact hknown p hp

/-- The dependence between two accesses is recorded in both. -/
theorem addTested_mirrors {m m' : DependenceMap} (h : SameKnown s.tree m m')
    (src dst : Instruction) (srcLoc dstLoc : MemoryLocation) :
    Mirrors (SameKnown s.tree) (addTested s src dst srcLoc dstLoc m)
      (s.addTested src dst srcLoc dstLoc m') := by
  unfold addTested DependenceSource.addTested
  cases s.depends src.id dst.id s.loop with
  | none => exact .ok h
  | some dep =>
    dsimp only
    cases dep.carried? s.loop.depth s.ignoreLoopIndependent with
    | none => exact .ok h
    | some kinds => exact .foldlM (fun loc _ m m' h => note_mirrors h loc) h

variable (w : ∀ t, s.function.aliasTree = some t → t.WellFormed)
  (hmodRef : s.modRef = s.function.modRef)

include w hmodRef

/-- That a location is not accessed is decided alike. -/
theorem untouched_eq (src dst : Instruction) (loc : MemoryLocation) :
    untouched s src dst loc = .ok (s.untouched src dst loc) := by
  rw [untouched, modRef_eq w, ok_bind, modRef_eq w, ok_bind, DependenceSource.untouched, hmodRef]
  cases (s.function.modRef src loc).isNoModRef <;> rfl

/-- Assumed dependences are recorded in both. The engine filters the locations beforehand. -/
theorem addAssumed_mirrors {m m' : DependenceMap} (h : SameKnown s.tree m m')
    (src dst : Instruction) :
    Mirrors (SameKnown s.tree) (addAssumed s src dst m) (s.addAssumed src dst m') := by
  unfold addAssumed DependenceSource.addAssumed
  extract_lets cause marks
  rw [List.foldlM_filter]
  refine .foldlM (fun loc _ m m' h => ?_) h
  rw [untouched_eq w hmodRef, ok_bind]
  cases s.untouched src dst loc with
  | true => exact .ok h
  | false => exact note_mirrors h loc

/-- What an instruction contributes is mirrored, for the body from its position on exists. -/
theorem addFrom_mirrors {m m' : DependenceMap} (h : SameKnown s.tree m m')
    {body : List Instruction} {i : Nat} (hi : i ≤ body.length) (src : Instruction) :
    Mirrors (SameKnown s.tree) (addFrom s body m src i)
      (s.addFrom body src (body.drop i) m') := by
  unfold addFrom DependenceSource.addFrom
  cases src.touchesMemory with
  | false => exact .ok h
  | true =>
    cases src.location? with
    | none => exact .foldlM (fun dst _ m m' h => addAssumed_mirrors w hmodRef h src dst) h
    | some srcLoc =>
      dsimp only
      rw [suffix, if_pos hi]
      refine Mirrors.foldlM (fun dst _ m m' h => ?_) h
      cases dst.location? with
      | none => exact .ok h
      | some dstLoc => exact addTested_mirrors h ..

/-- The run over what is left of a body. -/
theorem addAll_mirrors {body : List Instruction} {rest : List Instruction} {i : Nat}
    (hrest : body.drop i = rest) {m m' : DependenceMap} (h : SameKnown s.tree m m') :
    Mirrors (SameKnown s.tree) ((rest.zipIdx i).foldlM (fun m p => addFrom s body m p.1 p.2) m)
      (s.addAll body rest m') := by
  -- Position `i` is the head of what is left, so the part of the body from there on exists.
  induction rest generalizing i m m' with
  | nil => exact .ok h
  | cons src rest ih =>
    have hi : i < body.length := by
      by_contra hle
      rw [List.drop_eq_nil_of_le (by omega)] at hrest
      cases hrest
    have hnext : body.drop (i + 1) = rest := by
      rw [← List.drop_drop, hrest, List.drop_one, List.tail_cons]
    have hstep := addFrom_mirrors w hmodRef h (Nat.le_of_lt hi) src
    rw [hrest] at hstep
    rw [List.zipIdx_cons, List.foldlM_cons, DependenceSource.addAll]
    show Mirrors _ (addFrom s body m src i >>= _) _
    generalize addFrom s body m src i = x, s.addFrom body src (src :: rest) m' = y at hstep
    -- An error ends both runs at the same source.
    cases hstep with
    | ok h => exact ih hnext h
    | error e => exact .error e

/-- The dependences of a loop are the same, or the same location has no memory. -/
theorem collect_mirrors : Mirrors (SameKnown s.tree) (collect s) s.collect :=
  addAll_mirrors w hmodRef List.drop_zero ⟨rfl, fun _ hp => nomatch hp⟩

end Mirrors

end Privatization.Guarded
