import Privatization.Memory.LocationSet

/-!
# Def-use summaries

What a loop body does to memory by name: the locations, unknown accesses and addresses it mentions,
in the order they were first given, and the sets of what one iteration uses and defines.
-/

namespace Privatization

/-- Appends `a` unless the list has it. -/
def appendNew {α : Type} [DecidableEq α] (l : List α) (a : α) : List α :=
  if a ∈ l then l else l ++ [a]

/-- Def-use summary of one loop body. `uses` holds upward-exposed reads: locations that may be read
in an iteration before that iteration writes them. -/
structure DefUse where
  explicit : List MemoryLocation := []
  unknowns : List InstId := []
  addresses : List ValueId := []
  defs : LocationSet := ∅
  mayDefs : LocationSet := ∅
  uses : LocationSet := ∅
  deriving DecidableEq

namespace DefUse

instance : EmptyCollection DefUse := ⟨{}⟩

instance : Inhabited DefUse := ⟨∅⟩

/-- Records that the body accesses a location by name. -/
def addExplicit (d : DefUse) (loc : MemoryLocation) : DefUse :=
  { d with explicit := appendNew d.explicit loc }

/-- Records an access whose memory is unknown. -/
def addUnknown (d : DefUse) (inst : InstId) : DefUse :=
  { d with unknowns := appendNew d.unknowns inst }

/-- Records that the address of a value is taken. -/
def addAddress (d : DefUse) (ptr : ValueId) : DefUse :=
  { d with addresses := appendNew d.addresses ptr }

/-- Records a location every iteration writes. -/
def addDef (d : DefUse) (loc : MemoryLocation) : DefUse :=
  { d with defs := d.defs.insert loc }

/-- Records a location some iteration may write. -/
def addMayDef (d : DefUse) (loc : MemoryLocation) : DefUse :=
  { d with mayDefs := d.mayDefs.insert loc }

/-- Records a location read before it is written. -/
def addUse (d : DefUse) (loc : MemoryLocation) : DefUse :=
  { d with uses := d.uses.insert loc }

/-- Whether some byte of `loc` may be read before it is written. -/
def hasUse (d : DefUse) (loc : MemoryLocation) : Bool := d.uses.overlaps loc

/-- Whether every byte of `loc` is written. -/
def hasDef (d : DefUse) (loc : MemoryLocation) : Bool := d.defs.contains loc

/-- Whether some byte of `loc` may be written. -/
def hasMayDef (d : DefUse) (loc : MemoryLocation) : Bool := d.mayDefs.overlaps loc

end DefUse

/-- Definitions that reach the end of a data-flow node. -/
structure ReachingDefs where
  /-- Written on every path. -/
  must : LocationSet
  /-- Written on some path. -/
  may : LocationSet
  deriving DecidableEq

end Privatization
