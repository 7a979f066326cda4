import Privatization.Classification.Scope
import Privatization.Dependence.Record

/-!
# Collecting dependences

The dependences of a loop, keyed by the estimate memory they concern. Every pair of loads and
stores in the body is put to the dependence test. An instruction whose memory cannot be pinned to
one location is paired with every memory instruction of the body and recorded conservatively,
without asking the test.
-/

namespace Privatization

/-- Dependence records in the order their memory was first met. -/
abbrev DependenceMap := OrderedMap EstimateId DependenceRecord

/-- What the dependences of a loop are collected from. -/
structure DependenceSource where
  function : Function
  tree : AliasTree
  loop : Loop
  depends : DependenceOracle
  modRef : ModRefOracle
  /-- Whether to drop dependences that stay within one iteration of the loop. -/
  ignoreLoopIndependent : Bool

namespace DependenceSource

variable (s : DependenceSource)

/-- Marks an access of the loop header. -/
def headerMark (i : Instruction) : DependenceMarks :=
  if i.block = s.loop.header then {.headerAccess} else ∅

/-- Adds an occurrence to the record of the memory of `loc`. -/
def note (kinds : CarriedKinds) (marks : DependenceMarks) (distance : Option Distance)
    (m : DependenceMap) (loc : MemoryLocation) : Except ClassifyError DependenceMap :=
  match s.tree.find? loc with
  | none => .error (.missingEstimate s.loop.id loc)
  | some em => .ok (m.update em ∅ (·.update kinds marks distance))

/-- What a tested pair of a load or store with another contributes. -/
def addTested (src dst : Instruction) (srcLoc dstLoc : MemoryLocation) (m : DependenceMap) :
    Except ClassifyError DependenceMap :=
  match s.depends src.id dst.id s.loop with
  | none => .ok m
  | some dep =>
    match dep.carried? s.loop.depth s.ignoreLoopIndependent with
    | none => .ok m
    | some kinds =>
      [srcLoc, dstLoc].foldlM
        (s.note kinds ({.loadStore} ∪ s.headerMark src) (dep.distance? s.loop.depth)) m

/-- Whether either of two instructions leaves `loc` alone. -/
def untouched (src dst : Instruction) (loc : MemoryLocation) : Bool :=
  (s.modRef src loc).isNoModRef || (s.modRef dst loc).isNoModRef

/-- What the pair of an instruction without single location and a memory instruction contributes:
any dependence of any kind on the memory both may touch. -/
def addAssumed (src dst : Instruction) (m : DependenceMap) :
    Except ClassifyError DependenceMap :=
  let cause : DependenceMarks := if src.isCall || dst.isCall then {.call} else {.unknown}
  let marks := cause ∪ {.may, .unknownDistance} ∪ s.headerMark src
  ((src.operands ++ dst.operands).filter fun loc => !s.untouched src dst loc).foldlM
    (s.note .univ marks none) m

/-- What `src` contributes as the source of dependences, `later` being the body from `src` on. -/
def addFrom (body : List Instruction) (src : Instruction) (later : List Instruction)
    (m : DependenceMap) : Except ClassifyError DependenceMap :=
  if src.touchesMemory then
    match src.location? with
    | some srcLoc =>
      later.foldlM (fun m dst =>
        match dst.location? with
        | some dstLoc => s.addTested src dst srcLoc dstLoc m
        | none => .ok m) m
    | none => (body.filter (·.touchesMemory)).foldlM (fun m dst => s.addAssumed src dst m) m
  else .ok m

/-- What the instructions of a tail of the body contribute. -/
def addAll (body : List Instruction) :
    List Instruction → DependenceMap → Except ClassifyError DependenceMap
  | [], m => .ok m
  | src :: rest, m =>
    match s.addFrom body src (src :: rest) m with
    | .ok m => addAll body rest m
    | .error e => .error e

/-- The dependences of the loop. -/
def collect : Except ClassifyError DependenceMap :=
  let body := s.function.body s.loop
  s.addAll body body ∅

end DependenceSource

end Privatization
