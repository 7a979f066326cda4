import Privatization.Memory.Location
import Privatization.Text.SourceLocation

/-!
# Values

The pointers of a function and where each of them comes from.
-/

namespace Privatization

/-- Where a value comes from. -/
inductive ValueKind where
  /-- Automatic object allocated in a block. -/
  | alloca (block : BlockId)
  /-- Object that exists for the whole run. -/
  | global
  /-- Argument of the function. -/
  | argument
  /-- Pointer obtained by reading a location. -/
  | load (location : MemoryLocation)
  /-- Result of a call. -/
  | callResult
  | other
  deriving DecidableEq

/-- A named value. -/
structure Value where
  name : String
  kind : ValueKind
  source : Option SourceLocation
  deriving DecidableEq

namespace Value

/-- Whether the value is an automatic or global object: storage whose lifetime a loop does not
control. -/
def isObject (v : Value) : Bool :=
  match v.kind with
  | .alloca _ | .global => true
  | _ => false

/-- The location a pointer was read from. -/
def loadedFrom? (v : Value) : Option MemoryLocation :=
  match v.kind with
  | .load location => some location
  | _ => none

/-- The block an automatic object is allocated in. -/
def allocatedIn? (v : Value) : Option BlockId :=
  match v.kind with
  | .alloca block => some block
  | _ => none

end Value

end Privatization
