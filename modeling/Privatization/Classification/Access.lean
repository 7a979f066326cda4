import Privatization.Classification.Ledger

/-!
# Resolving accesses

The first classification of everything a loop accesses by name, in three passes over the def-use
summary. Accesses establish a trait for each location; pointers demote memory reached through a
pointer that the loop may change; addresses mark objects whose address escapes the body. A pass
stops at the first location without estimate memory and keeps what it did before.
-/

namespace Privatization

/-- Runs `step` along a list up to the first error, and gives the state reached with it. -/
def runSteps {σ α ε : Type} (step : σ → α → Except ε σ) (s : σ) : List α → σ × Except ε Unit
  | [] => (s, .ok ())
  | a :: as =>
    match step s a with
    | .ok s => runSteps step s as
    | .error e => (s, .error e)

namespace Scope

variable (s : Scope)

/-! ### Accesses -/

/-- The trait of an access to `loc`, given whether the loop recorded a dependence on its memory.

A location that is not read before it is written is private, and what survives of it depends on
liveness and on the definitions that reach latch and exit. Any other location is a dependence where
one was recorded and the loop writes it, and else only read. Memory without recorded dependence may
be shared, whatever else holds, unless it is a read. -/
def accessTrait (carried : Bool) (loc : MemoryLocation) : Trait :=
  let shared := if carried then Trait.noAccess else Trait.shareable
  if !s.defUse.hasUse loc then
    if !s.live.overlaps loc then Trait.privateOnly.meet shared
    else if s.defUse.hasDef loc then Trait.lastPrivate.meet shared
    else if s.latch.must.contains loc && !s.exit.may.overlaps loc then
      (Trait.secondToLastPrivate.meet Trait.firstPrivate).meet shared
    else (Trait.dynamicPrivate.meet Trait.firstPrivate).meet shared
  else if carried && (s.defUse.hasMayDef loc || s.defUse.hasDef loc) then Trait.dependency
  else Trait.readonly

/-- Classifies one location accessed by name. -/
def resolveAccess (l : Ledger) (loc : MemoryLocation) : Except ClassifyError Ledger := do
  let em ← s.estimate loc
  let (l, id) := l.trackExplicit s.tree em
  return l.narrow id (s.accessTrait (l.dependences.contains em) loc)

/-- The trait of an unknown access: whatever does more than read is a dependence. -/
def unknownTrait (inst : InstId) : Trait :=
  if (s.function.instruction? inst).any (·.isReadOnlyEffect) then Trait.readonly
  else Trait.dependency

/-- Classifies one unknown access. -/
def resolveUnknown (l : Ledger) (inst : InstId) : Except ClassifyError Ledger := do
  let node ← require (.missingUnknown s.loop.id inst) (s.tree.findUnknown? inst)
  return (l.addUnknown inst node (s.unknownTrait inst)).1

/-- Classifies every location and every unknown access of the loop. -/
def resolveAccesses (l : Ledger) : Ledger × Except ClassifyError Unit :=
  match runSteps s.resolveAccess l s.defUse.explicit with
  | (l, .ok ()) => runSteps s.resolveUnknown l s.defUse.unknowns
  | failed => failed

/-! ### Pointers -/

/-- Whether a trait is safe to reach through a pointer that may change. -/
def toleratesMovingPointer (v : Trait) : Bool :=
  v.is .private_ || v.is .readonly || v.is .shared

/-- Whether the loop may change the pointer stored at `loc`: it accesses it, and not only to
read. -/
def mayMove (l : Ledger) (loc : MemoryLocation) : Bool :=
  ((s.tree.find? loc).bind l.explicitEntry?).any fun id => !(l.value id).is .readonly

/-- Demotes one location to a dependence where its pointer may change: each iteration may then be
looking at a different object. -/
def resolvePointer (l : Ledger) (loc : MemoryLocation) : Except ClassifyError Ledger :=
  match (s.function.value? loc.ptr).bind Value.loadedFrom? with
  | none => .ok l
  | some pointer => do
    let em ← s.estimate loc
    match l.explicitEntry? em with
    | none => return l
    | some id =>
      if !toleratesMovingPointer (l.value id) && s.mayMove l pointer then
        return l.narrow id Trait.dependency
      else return l

/-- Demotes memory reached through pointers that the loop may change. -/
def resolvePointers (l : Ledger) : Ledger × Except ClassifyError Unit :=
  runSteps s.resolvePointer l s.defUse.explicit

/-! ### Addresses -/

/-- Whether a value is storage whose lifetime the loop does not control. An object allocated inside
the loop is fresh in every iteration. -/
def outlivesIteration (v : Value) : Bool :=
  v.isObject && !(v.allocatedIn?.any s.loop.contains)

/-- Whether the address of a value escapes inside the loop. -/
def letsEscape (v : ValueId) : Bool :=
  (s.function.users v).any fun i => s.loop.contains i.block && i.letsEscape v

/-- Marks the memory at a pointer whose address escapes. -/
def resolveAddress (l : Ledger) (ptr : ValueId) : Except ClassifyError Ledger := do
  let em ← s.estimate ⟨ptr, some 0⟩
  let object := ((s.tree.estimate? (s.tree.outermost em)).bind
    fun e => s.function.value? e.front)
  if object.any s.outlivesIteration && s.letsEscape ptr then
    let (l, id) := l.trackExplicit s.tree em
    return l.narrow id Trait.addressOnly
  else return l

/-- Marks the objects whose address escapes. -/
def resolveAddresses (l : Ledger) : Ledger × Except ClassifyError Unit :=
  runSteps s.resolveAddress l s.defUse.addresses

end Scope

end Privatization
