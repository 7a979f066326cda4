import Privatization.Memory.Location

/-!
# Location sets

The sets that reaching definitions and liveness are given as. A set keeps, of the locations
inserted for one pointer, those that no other covers.
-/

namespace Privatization

/-- A set of memory locations, none of which covers another. -/
structure LocationSet where
  locations : List MemoryLocation
  deriving DecidableEq

namespace LocationSet

instance : EmptyCollection LocationSet := ⟨⟨[]⟩⟩

instance : Inhabited LocationSet := ⟨∅⟩

/-- Whether every byte of `loc` is in the set. -/
def contains (s : LocationSet) (loc : MemoryLocation) : Bool :=
  s.locations.any (·.covers loc)

/-- Whether some byte of `loc` may be in the set. -/
def overlaps (s : LocationSet) (loc : MemoryLocation) : Bool :=
  s.locations.any fun kept => kept.ptr == loc.ptr && kept.size != some 0

/-- Adds a location and drops those it covers. -/
def insert (s : LocationSet) (loc : MemoryLocation) : LocationSet :=
  if s.contains loc then s
  else ⟨s.locations.filter (fun kept => !loc.covers kept) ++ [loc]⟩

/-- Adds locations one after the other. -/
def insertAll (s : LocationSet) (locs : List MemoryLocation) : LocationSet :=
  locs.foldl insert s

/-- The set of the locations of a list. -/
def ofList (locs : List MemoryLocation) : LocationSet := (∅ : LocationSet).insertAll locs

/-- Number of locations kept. -/
def size (s : LocationSet) : Nat := s.locations.length

/-- Whether nothing was inserted. -/
def isEmpty (s : LocationSet) : Bool := s.locations.isEmpty

@[simp] theorem contains_empty (loc : MemoryLocation) :
    (∅ : LocationSet).contains loc = false := rfl

end LocationSet

end Privatization
