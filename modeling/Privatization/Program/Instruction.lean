import Privatization.Memory.Location

/-!
# Instructions

What an instruction does to memory: the location it reads or writes, if that can be singled out,
every location it is known to touch, and the values whose address it lets escape.
-/

namespace Privatization

/-- The operation of an instruction. -/
inductive Operation where
  | load (location : MemoryLocation)
  /-- `stored` is the stored value when it is a pointer of the function. -/
  | store (location : MemoryLocation) (stored : Option ValueId)
  /-- `accesses` are the locations reachable through the pointer operands. -/
  | call (callee : String) (readsOnly : Bool) (accesses : List MemoryLocation)
  /-- Memory touched by something other than a load, store or call, such as an atomic update. Like
  a call, it has no single location. -/
  | effect (readsOnly : Bool) (accesses : List MemoryLocation)
  | pointerToInteger (operand : ValueId)
  /-- Array or structure addressing rooted at `base`. -/
  | addressOf (base : ValueId)
  | other
  deriving DecidableEq

/-- An instruction and the block it stands in. -/
structure Instruction where
  id : InstId
  block : BlockId
  op : Operation
  deriving DecidableEq

namespace Instruction

/-- Whether memory may be read or written here. -/
def touchesMemory (i : Instruction) : Bool :=
  match i.op with
  | .load _ | .store .. | .call .. | .effect .. => true
  | _ => false

/-- Whether memory may be written here. -/
def mayWrite (i : Instruction) : Bool :=
  match i.op with
  | .store .. => true
  | .call _ readsOnly _ | .effect readsOnly _ => !readsOnly
  | _ => false

/-- Whether this is a call. -/
def isCall (i : Instruction) : Bool :=
  match i.op with
  | .call .. => true
  | _ => false

/-- Whether this is a call or another effect that only reads memory. -/
def isReadOnlyEffect (i : Instruction) : Bool :=
  match i.op with
  | .call _ readsOnly _ | .effect readsOnly _ => readsOnly
  | _ => false

/-- The single location read or written, if it can be singled out. -/
def location? (i : Instruction) : Option MemoryLocation :=
  match i.op with
  | .load location | .store location _ => some location
  | _ => none

/-- Every location known to be touched. -/
def operands (i : Instruction) : List MemoryLocation :=
  match i.op with
  | .load location | .store location _ => [location]
  | .call _ _ accesses | .effect _ accesses => accesses
  | _ => []

/-- Whether `v` leaves simple dereference here: converted to an integer or stored as data. -/
def letsEscape (i : Instruction) (v : ValueId) : Bool :=
  match i.op with
  | .pointerToInteger operand => operand == v
  | .store _ stored => stored == some v
  | _ => false

/-- Whether `v` is mentioned as an operand. -/
def uses (i : Instruction) (v : ValueId) : Bool :=
  match i.op with
  | .load location => location.ptr == v
  | .store location stored => location.ptr == v || stored == some v
  | .call _ _ accesses | .effect _ accesses => accesses.any (·.ptr == v)
  | .pointerToInteger operand => operand == v
  | .addressOf base => base == v
  | .other => false

end Instruction

end Privatization
