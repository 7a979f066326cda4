import Privatization.Classification.Summary

/-!
# Propagation

Alias nodes are visited children first. Each node collects the entries its children finished, folds
duplicates, stores its result and hands its list on to its parent.
-/

namespace Privatization

namespace Scope

variable (s : Scope)

/-! ### Collecting from the children -/

/-- Takes one entry of a child into the list of `node`. On entering the node of its parent memory,
an entry is folded into the entry for that memory if the loop accesses it by name, and otherwise
comes to stand for it. -/
def collectEntry (node : AliasNodeId) (acc : Ledger × List EntryId) (id : EntryId) :
    Ledger × List EntryId :=
  let (l, kept) := acc
  let id := l.leader id
  match (l.memory? id).bind s.tree.estimateParent? with
  | none => (l, kept ++ [id])
  | some parent =>
    if s.tree.home parent == node then
      match l.explicitEntry? parent with
      | some target => (l.fold id target, kept)
      | none => (l.setMemory id parent, kept ++ [id])
    else (l, kept ++ [id])

/-- Takes what a child finished into the lists of `node`. -/
def collectChild (node : AliasNodeId) (acc : Ledger × List EntryId × List UnknownEntryId)
    (child : AliasNodeId) : Ledger × List EntryId × List UnknownEntryId :=
  let (l, entries, unknowns) := acc
  let finished := l.entriesAt child
  let passed := l.unknownsAt child
  let (l, entries) := finished.foldl (s.collectEntry node) (l.clearNode child, entries)
  (l, entries, unknowns ++ passed)

/-! ### Folding duplicates -/

/-- Lets an entry that belongs to `node` stand for the coarsest memory of the node around it. -/
def generalize (node : AliasNodeId) (l : Ledger) (id : EntryId) : Ledger :=
  match l.memory? id with
  | none => l
  | some em =>
    if s.tree.home em == node then l.setMemory id (s.tree.outermostIn node em) else l

/-- Compares an entry for `em` with those kept. It is folded into the first whose memory lies
around `em`, which the last component tells; kept entries inside `em` that come before are folded
into it. -/
def absorb (id : EntryId) (em : EstimateId) :
    Ledger → List EntryId → Ledger × List EntryId × Bool
  | l, [] => (l, [], false)
  | l, other :: rest =>
    match l.memory? other with
    | none =>
      let (l, rest, absorbed) := absorb id em l rest
      (l, other :: rest, absorbed)
    | some otherEm =>
      if s.tree.isEstimateAncestor otherEm em then (l.fold id other, other :: rest, true)
      else if s.tree.isEstimateAncestor em otherEm then absorb id em (l.fold other id) rest
      else
        let (l, rest, absorbed) := absorb id em l rest
        (l, other :: rest, absorbed)

/-- Adds an entry to those kept unless one of them stands for it. -/
def keep (acc : Ledger × List EntryId) (id : EntryId) : Ledger × List EntryId :=
  let (l, kept) := acc
  let id := l.leader id
  if id ∈ kept then (l, kept)
  else
    match l.memory? id with
    | none => (l, kept ++ [id])
    | some em =>
      let (l, kept, absorbed) := s.absorb id em l kept
      (l, if absorbed then kept else kept ++ [id])

/-- Lifts the entries of `node` to the coarsest memory of the node and folds those for the same
memory, or for memory inside another's, together. -/
def foldDuplicates (node : AliasNodeId) (l : Ledger) (entries : List EntryId) :
    Ledger × List EntryId :=
  entries.foldl s.keep (entries.foldl (s.generalize node) l, [])

/-! ### The whole tree -/

/-- Finishes a node whose children are finished. -/
def finishNode (acc : Ledger × TraitMap) (node : AliasNodeId) : Ledger × TraitMap :=
  let (l, m) := acc
  let own := (l.clearNode node, l.entriesAt node, l.unknownsAt node)
  let (l, entries, unknowns) := (s.tree.nodeChildren node).foldl (s.collectChild node) own
  let (l, entries) := s.foldDuplicates node l entries
  let (l, m) := s.storeResults node entries unknowns l m
  (l.setNode node entries unknowns, m)

/-- Finishes every node of the tree. -/
def propagate (l : Ledger) (m : TraitMap) : Ledger × TraitMap :=
  s.tree.postOrder.foldl s.finishNode (l, m)

end Scope

end Privatization
