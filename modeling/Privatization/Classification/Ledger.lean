import Privatization.Alias.Walk
import Privatization.Classification.Dependences
import Privatization.Trait.Result

/-!
# The ledger of a classification

While a loop is classified, a ledger keeps one entry per piece of memory it tracks. Entries stand in
lists of alias nodes and travel towards the root of the alias tree. Folding an entry into another
joins their groups: every entry knows the leader of its group, and the leader holds the memory and
the value of the whole group. So an entry can be named by any identity its group ever had.
-/

namespace Privatization

/-- Identity of an entry. -/
structure EntryId where
  index : Nat
  deriving DecidableEq

/-- Identity of an entry for an unknown access. -/
structure UnknownEntryId where
  index : Nat
  deriving DecidableEq

/-- A tracked piece of memory. -/
structure Entry where
  memory : EstimateId
  value : Trait
  leader : EntryId
  deriving DecidableEq

/-- A tracked unknown access, with the alias node it was first attributed to. -/
structure UnknownEntry where
  inst : InstId
  node : AliasNodeId
  value : Trait
  deriving DecidableEq

/-- The working state of the classification of a loop. -/
structure Ledger where
  dependences : DependenceMap := ∅
  statistics : Statistics := {}
  entries : Array Entry := #[]
  unknowns : Array UnknownEntry := #[]
  /-- Entries of the memory the loop accesses by name. -/
  explicit : OrderedMap EstimateId EntryId := ∅
  explicitUnknowns : OrderedMap InstId UnknownEntryId := ∅
  nodeEntries : OrderedMap AliasNodeId (List EntryId) := ∅
  nodeUnknowns : OrderedMap AliasNodeId (List UnknownEntryId) := ∅

namespace Ledger

variable (l : Ledger)

/-! ### Entries and their groups -/

/-- The leader of the group of an entry. -/
def leader (id : EntryId) : EntryId :=
  match l.entries[id.index]? with
  | some e => e.leader
  | none => id

/-- The entry that speaks for the group of `id`. -/
def entry? (id : EntryId) : Option Entry := l.entries[(l.leader id).index]?

/-- The value of the group of `id`. -/
def value (id : EntryId) : Trait := ((l.entry? id).map (·.value)).getD Trait.noAccess

/-- The memory of the group of `id`. -/
def memory? (id : EntryId) : Option EstimateId := (l.entry? id).map (·.memory)

/-- Adds an entry in a group of its own. -/
def addEntry (memory : EstimateId) (value : Trait) : Ledger × EntryId :=
  let id := EntryId.mk l.entries.size
  ({ l with entries := l.entries.push { memory, value, leader := id } }, id)

/-- Changes the entry that speaks for the group of `id`. -/
def modifyEntry (id : EntryId) (f : Entry → Entry) : Ledger :=
  { l with entries := l.entries.modify (l.leader id).index f }

/-- Lets another observation of the group of `id` hold too. -/
def narrow (id : EntryId) (value : Trait) : Ledger :=
  l.modifyEntry id fun e => { e with value := e.value.meet value }

/-- Moves the group of `id` to another memory. -/
def setMemory (id : EntryId) (memory : EstimateId) : Ledger :=
  l.modifyEntry id fun e => { e with memory }

/-- Joins the group of `source` to that of `target`, which keeps its memory and is narrowed by the
value of `source`. -/
def fold (source target : EntryId) : Ledger :=
  let a := l.leader source
  let b := l.leader target
  if a = b then l
  else
    let l := l.narrow b (l.value a)
    { l with entries := l.entries.map fun e => if e.leader = a then { e with leader := b } else e }

/-! ### Accesses by name -/

/-- The entry of a memory the loop accesses by name. -/
def explicitEntry? (em : EstimateId) : Option EntryId := (l.explicit.get? em).map l.leader

/-- Whether the group of `id` holds an access by name to memory of `node`. -/
def isExplicitIn (t : AliasTree) (id : EntryId) (node : AliasNodeId) : Bool :=
  l.explicit.toList.any fun (em, e) => l.leader e == l.leader id && t.home em == node

/-- The memory accessed by name in more than its address. -/
def explicitlyAccessed : List EstimateId :=
  (l.explicit.toList.filter fun (_, id) => !(l.value id).is .noAccess).map Prod.fst

/-- The entries listed at a node. -/
def entriesAt (n : AliasNodeId) : List EntryId := (l.nodeEntries.get? n).getD []

/-- The unknown accesses listed at a node. -/
def unknownsAt (n : AliasNodeId) : List UnknownEntryId := (l.nodeUnknowns.get? n).getD []

/-- Lists entries and unknown accesses at a node, in place of those it had. -/
def setNode (n : AliasNodeId) (entries : List EntryId) (unknowns : List UnknownEntryId) : Ledger :=
  { l with
    nodeEntries := l.nodeEntries.insert n entries
    nodeUnknowns := l.nodeUnknowns.insert n unknowns }

/-- Removes the lists of a node. -/
def clearNode (n : AliasNodeId) : Ledger :=
  { l with nodeEntries := l.nodeEntries.erase n, nodeUnknowns := l.nodeUnknowns.erase n }

/-- The entry for accesses by name to `em`. A new one starts untouched in the list of the node `em`
lives in. -/
def trackExplicit (t : AliasTree) (em : EstimateId) : Ledger × EntryId :=
  match l.explicitEntry? em with
  | some id => (l, id)
  | none =>
    let (l, id) := l.addEntry em Trait.noAccess
    ({ l with
      explicit := l.explicit.insert em id
      nodeEntries := l.nodeEntries.update (t.home em) [] (· ++ [id]) }, id)

/-! ### Unknown accesses -/

/-- An unknown access that is tracked. -/
def unknown? (id : UnknownEntryId) : Option UnknownEntry := l.unknowns[id.index]?

/-- Tracks an unknown access in the list of its node. -/
def addUnknown (inst : InstId) (node : AliasNodeId) (value : Trait) : Ledger × UnknownEntryId :=
  let id := UnknownEntryId.mk l.unknowns.size
  ({ l with
    unknowns := l.unknowns.push { inst, node, value }
    explicitUnknowns := l.explicitUnknowns.insert inst id
    nodeUnknowns := l.nodeUnknowns.update node [] (· ++ [id]) }, id)

/-- Lets another observation of an unknown access hold too. -/
def narrowUnknown (id : UnknownEntryId) (value : Trait) : Ledger :=
  { l with unknowns :=
    l.unknowns.modify id.index fun u => { u with value := u.value.meet value } }

/-- Counts `count` pieces of memory reported under the categories `s`. -/
def count (s : Categories) (count : UInt64) : Ledger :=
  { l with statistics := l.statistics + Statistics.tally s count }

end Ledger

end Privatization
