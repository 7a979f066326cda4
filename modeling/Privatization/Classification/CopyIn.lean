import Privatization.Alias.Cover
import Privatization.Classification.Ledger

/-!
# Copy-in refinement

A last private entry, or one of the last iteration but one, whose memory is not written in full on
the relevant path: the bytes nobody writes keep their value from before the loop, so each private
copy has to start from it. Such an entry becomes first private as well.
-/

namespace Privatization

namespace Scope

variable (s : Scope)

/-- Whether definitions write a memory at each of its pointers. -/
def writes (defs : ReachingDefs) (em : EstimateId) : Bool :=
  (s.tree.estimate? em).all fun e => e.locations.all defs.must.contains

/-- Whether a memory is written on the path that matters: to the exit for the last iteration, and
to the latch or the exit for the one before it. -/
def writtenFor (last : Bool) (em : EstimateId) : Bool :=
  if last then s.writes s.exit em else s.writes s.latch em || s.writes s.exit em

/-- The undivided parts of a memory that are written on the path that matters. -/
def definedLeaves (last : Bool) (em : EstimateId) : List EstimateId :=
  (s.tree.estimateDescendants em).filter fun leaf => s.tree.isLeaf leaf && s.writtenFor last leaf

/-- Whether the categories of `em` call for a copy of its value from before the loop. -/
def needsCopyIn (em : EstimateId) (c : Categories) : Bool :=
  !c.has .firstPrivate && c.meets {.lastPrivate, .secondToLastPrivate}
    && !s.tree.covers em (s.definedLeaves (c.has .lastPrivate) em)

/-- Makes an entry first private where its categories call for it, and tells whether it did. -/
def refineCopyIn (l : Ledger) (id : EntryId) (c : Categories) : Ledger × Categories × Bool :=
  if (l.memory? id).any fun em => s.needsCopyIn em c then
    (l.narrow id Trait.firstPrivate, c ∪ {.firstPrivate}, true)
  else (l, c, false)

end Scope

end Privatization
