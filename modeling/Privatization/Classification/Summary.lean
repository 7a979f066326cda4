import Privatization.Classification.CopyIn

/-!
# Summarizing a node

The result of a finished alias node. A node with a single memory and no unknown access is reported
under exactly the categories of that memory. Any other node is summarized as read only, shared or a
dependence: no single copy discipline is safe for a mix of private variants.
-/

namespace Privatization

namespace Ledger

/-- The record of the dependences on a memory and its pieces, if any was collected. -/
def dependenceOf (l : Ledger) (t : AliasTree) (em : EstimateId) : Option DependenceRecord :=
  match l.dependences.toList.filter fun (piece, _) => t.isEstimateAncestor em piece with
  | [] => none
  | pieces => some (pieces.foldl (fun r (_, piece) => r.merge piece) ∅)

/-- Whether a memory of `node` is accessed by name in more than its address. -/
def isExplicit (l : Ledger) (t : AliasTree) (node : AliasNodeId) (em : EstimateId) : Bool :=
  t.home em == node && (l.explicitEntry? em).any fun id => !(l.value id).is .noAccess

end Ledger

/-- The trait that stands for several: only read only and shared survive, anything else is a
dependence. -/
def Trait.summary (v : Trait) : Trait :=
  if v.is .readonly then .readonly else if v.is .shared then .shared else .dependency

namespace Scope

variable (s : Scope)

/-- The result for one entry at a node, and whether the loop accesses it there by name. Entries on
their way to the root are counted only where the loop accessed them. -/
def memoryTrait (l : Ledger) (node : AliasNodeId) (id : EntryId) :
    Ledger × Option (MemoryTrait × Bool) :=
  match l.memory? id with
  | none => (l, none)
  | some em =>
    let count : UInt64 := if l.isExplicitIn s.tree id node then 1 else 0
    let c := (l.value id).categories
    let l := l.count c count
    let (l, c, refined) := s.refineCopyIn l id c
    let l := if refined then l.count {.firstPrivate} count else l
    let explicit := l.isExplicit s.tree node em
    let c := if explicit then c ∪ {.explicitAccess} else c
    (l, some (⟨em, c, l.dependenceOf s.tree em⟩, explicit))

/-- A node summary under way. -/
structure Draft where
  ledger : Ledger
  /-- What all constituents so far have in common. -/
  combined : Trait := Trait.noAccess
  explicit : Bool := false
  memories : List MemoryTrait := []
  unknowns : List UnknownTrait := []

/-- Adds an entry to a node summary. -/
def addMemory (node : AliasNodeId) (d : Draft) (id : EntryId) : Draft :=
  let combined := d.combined.meet (d.ledger.value id)
  match s.memoryTrait d.ledger node id with
  | (ledger, some (m, explicit)) =>
    { d with ledger, combined, explicit := d.explicit || explicit, memories := d.memories ++ [m] }
  | (ledger, none) => { d with ledger, combined }

/-- Adds an unknown access to a node summary. It is counted at the node it was attributed to. -/
def addUnknown (node : AliasNodeId) (d : Draft) (id : UnknownEntryId) : Draft :=
  match d.ledger.unknown? id with
  | none => d
  | some u =>
    let c := u.value.categories
    let own := u.node == node
    let explicit := own && !u.value.is .noAccess
    { d with
      ledger := d.ledger.count c (if own then 1 else 0)
      combined := d.combined.meet u.value
      explicit := d.explicit || explicit
      unknowns := d.unknowns ++ [⟨u.inst, if explicit then c ∪ {.explicitAccess} else c⟩] }

/-- The result for a node with several constituents. -/
def mixedTrait (l : Ledger) (node : AliasNodeId) (entries : List EntryId)
    (unknowns : List UnknownEntryId) : Ledger × NodeTrait :=
  let d := entries.foldl (s.addMemory node) { ledger := l }
  let d := unknowns.foldl (addUnknown node) d
  let c := (d.combined.meet d.combined.summary).categories
  let c := if d.explicit then c ∪ {.explicitAccess} else c
  (d.ledger, { node, categories := c, memories := d.memories, unknowns := d.unknowns })

/-- Stores the result for a node; a node without constituents gets none. -/
def storeResults (node : AliasNodeId) (entries : List EntryId) (unknowns : List UnknownEntryId)
    (l : Ledger) (m : TraitMap) : Ledger × TraitMap :=
  match entries, unknowns with
  | [], [] => (l, m)
  | [id], [] =>
    match s.memoryTrait l node id with
    | (l, some (t, _)) => (l, m.record { node, categories := t.categories, memories := [t] })
    | (l, none) => (l, m)
  | entries, unknowns =>
    let (l, t) := s.mixedTrait l node entries unknowns
    (l, m.record t)

end Scope

end Privatization
