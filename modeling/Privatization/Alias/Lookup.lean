import Privatization.Alias.Walk

/-!
# Looking up memory

The estimate memory that stands for a location is the smallest one that starts at its pointer and
spans it.
-/

namespace Privatization

namespace Estimate

/-- Whether the memory starts at the pointer of `loc` and spans it. -/
def spans (e : Estimate) (loc : MemoryLocation) : Bool :=
  e.locations.any (·.covers loc)

/-- Size for comparison: an unknown one counts as the largest. -/
def rank (e : Estimate) : Nat := e.size.getD addressLimit

end Estimate

namespace AliasTree

variable (t : AliasTree)

/-- The first of the listed items with the least rank. -/
def firstLeast {α : Type} (rank : α → Nat) : List α → Option α
  | [] => none
  | a :: as =>
    match firstLeast rank as with
    | none => some a
    | some b => if rank b < rank a then some b else some a

/-- The estimate memories that span `loc`, in the order they were added. -/
def candidates (loc : MemoryLocation) : List EstimateId :=
  t.estimateIds.filter fun e => (t.estimate? e).any (·.spans loc)

/-- The smallest estimate memory that spans `loc`; of several, the one added first. -/
def find? (loc : MemoryLocation) : Option EstimateId :=
  firstLeast (fun e => ((t.estimate? e).map Estimate.rank).getD addressLimit) (t.candidates loc)

/-- The node an unknown access was last attributed to. -/
def findUnknown? (inst : InstId) : Option AliasNodeId :=
  (t.attributions.reverse.find? (·.1 == inst)).map Prod.snd

/-- Whether two locations may share a byte. A location without estimate memory may alias
anything. -/
def mayAlias (a b : MemoryLocation) : Bool :=
  match t.find? a, t.find? b with
  | some ea, some eb => t.mayAliasNodes (t.home ea) (t.home eb)
  | _, _ => true

end AliasTree

end Privatization
