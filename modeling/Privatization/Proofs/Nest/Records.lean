import Privatization.Proofs.Forest.Nests
import Privatization.Proofs.Guarded.Forest

/-!
# Building the records of a loop nest

What is directly inside a loop can be read off the parents, as a loop nest does. A builder may as
well keep it: every loop lists the loops directly inside it, the nest lists the outermost ones, and
an addition updates one of these lists (`Records`). It checks what it was given before its first
update, so an addition that is refused changes nothing (`eq_of_run_addLoop_error`). The order of the
nest is walked with a stack over the lists that are kept.
-/

namespace Privatization

namespace LoopNest

/-- A loop with the loops directly inside it, in the order they were added. -/
structure LoopRecord extends Loop where
  children : List LoopId

def LoopRecord.addChild (c : LoopId) (l : LoopRecord) : LoopRecord :=
  { l with children := l.children ++ [c] }

/-- A loop nest as a builder keeps it. Records are numbered by their places. -/
structure Records where
  loops : Array LoopRecord
  topLevel : List LoopId

namespace Records

/-- The records of a nest without loops. -/
def empty : Records := ⟨#[], []⟩

/-- What is stored as the parent of a loop. -/
def parent? (r : Records) (id : LoopId) : Option LoopId := (r.loops[id.index]?).bind (·.parent)

/-! ### Additions -/

/-- Depth of a loop put inside its parent, whose blocks must include those of the new loop. -/
def depthUnder (r : Records) (s : LoopSpec) : Except ModelError Nat :=
  match s.parent with
  | none => .ok 1
  | some p =>
    match r.loops[p.index]? with
    | none => .error (.unknownLoop p)
    | some outer =>
      if s.blocks.subset outer.blocks then .ok (outer.depth + 1)
      else .error (.notNested s.name outer.name)

def push (l : LoopRecord) (r : Records) : Records := { r with loops := r.loops.push l }

/-- Lists a loop at its parent, or among the outermost ones. -/
def list (parent : Option LoopId) (id : LoopId) (r : Records) : Records :=
  match parent with
  | none => { r with topLevel := r.topLevel ++ [id] }
  | some p => { r with loops := r.loops.modify p.index (.addChild id) }

/-- A step that builds. One that is refused ends with the records as they are by then. -/
abbrev Build (α : Type) : Type := EStateM ModelError Records α

/-- Adds a loop. -/
def addLoop (s : LoopSpec) : Build LoopId := do
  let r ← get
  if s.header ∈ s.blocks then
    match r.depthUnder s with
    | .error e => throw e
    | .ok depth =>
      let id : LoopId := ⟨r.loops.size⟩
      modify (push { s.loop id depth with children := [] })
      modify (list s.parent id)
      return id
  else throw (.headerOutside s.header s.name)

/-- The records an addition leaves behind, whether it was made or refused. -/
def after (r : Records) (s : LoopSpec) : Records :=
  match (addLoop s).run r with
  | .ok _ r' => r'
  | .error _ r' => r'

/-- The records that additions build from a nest without loops. -/
def built (specs : List LoopSpec) : Records := specs.foldl after empty

variable {r r' : Records} {s : LoopSpec} {e : ModelError}

theorem run_addLoop : (addLoop s).run r =
    if s.header ∈ s.blocks then
      match r.depthUnder s with
      | .error e => .error e r
      | .ok depth => .ok ⟨r.loops.size⟩
        (list s.parent ⟨r.loops.size⟩ (push { s.loop ⟨r.loops.size⟩ depth with children := [] } r))
    else .error (.headerOutside s.header s.name) r := by
  show EStateM.run (if s.header ∈ s.blocks then _ else _) r = _
  split
  · show EStateM.run (match r.depthUnder s with | .error e => _ | .ok depth => _) r = _
    cases r.depthUnder s <;> rfl
  · rfl

/-- An addition that is refused changes nothing. -/
theorem eq_of_run_addLoop_error (h : (addLoop s).run r = .error e r') : r' = r := by
  rw [run_addLoop] at h
  split at h
  · split at h <;> cases h
    rfl
  · cases h
    rfl

/-! ### The order of the nest -/

/-- Numbers of the loops listed in a loop. -/
def below (r : Records) (i : Nat) : Guarded (List Nat) :=
  (Guarded.found r.loops[i]?).map fun l => l.children.map (·.index)

/-- Every loop, outer loops before the loops they contain, siblings in the order they were added. -/
def order (r : Records) : Guarded (List LoopId) := do
  let outermost := r.topLevel.map (·.index)
  let order ← Guarded.loop (Guarded.descendTurn r.below) (r.loops.size + 1) (outermost, [])
  return order.map LoopId.mk

end Records

end LoopNest

end Privatization
