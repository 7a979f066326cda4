import Privatization.Proofs.Guarded.Dependences
import Privatization.Proofs.Guarded.Links
import Privatization.Proofs.Ledger.Groups

/-!
# The arena behind a ledger

An arena is a ledger as it is kept in memory: the entries lie in cells with forwarding links instead
of leaders, and every number is looked up under guard. An arena `Backs` a ledger where each cell
says what the entry of the same number says, the links lead to the leaders, and all numbers that the
arena holds are in range. Each operation on a backed ledger is mirrored by the one on the arena.
-/

namespace Privatization.Guarded

/-- The working state of the classification of a loop. -/
structure Arena where
  dependences : DependenceMap := ∅
  statistics : Statistics := {}
  cells : Array Cell := #[]
  unknowns : Array UnknownEntry := #[]
  explicit : OrderedMap EstimateId EntryId := ∅
  explicitUnknowns : OrderedMap InstId UnknownEntryId := ∅
  nodeEntries : OrderedMap AliasNodeId (List EntryId) := ∅
  nodeUnknowns : OrderedMap AliasNodeId (List UnknownEntryId) := ∅

namespace Arena

variable (a : Arena)

/-- The cell that speaks for an entry. -/
def entry (id : EntryId) : Guarded Cell := do cell a.cells (← resolve a.cells id)

/-- Meets the value of a group with another, in the cell that speaks for it. -/
def narrow (id : EntryId) (value : Trait) : Guarded Arena := do
  let cells ← change a.cells id fun c => { c with value := c.value.meet value }
  return { a with cells }

/-- Moves a group to another memory. -/
def setMemory (id : EntryId) (memory : EstimateId) : Guarded Arena := do
  let cells ← change a.cells id fun c => { c with memory }
  return { a with cells }

/-- Folds the group of one entry into that of another. -/
def fold (source target : EntryId) : Guarded Arena := do
  let cells ← foldCells a.cells source target
  return { a with cells }

/-- The entry that speaks for accesses by name to a memory, if there is one. -/
def explicitEntry? (em : EstimateId) : Guarded (Option EntryId) :=
  match a.explicit.get? em with
  | none => return none
  | some id => return some (← resolve a.cells id)

/-- Whether some memory of the node is tracked in the group of an entry. Every tracked memory is
followed along its links for this. -/
def isExplicitIn (t : AliasTree) (id : EntryId) (n : AliasNodeId) : Guarded Bool := do
  let id ← resolve a.cells id
  a.explicit.toList.anyM fun p => do
    if (← resolve a.cells p.2) = id then return (← home t p.1) == n else return false

/-- The memory accessed by name in more than its address. -/
def explicitlyAccessed : Guarded (List EstimateId) := do
  let accessed ← a.explicit.toList.filterM fun p => return !(← a.entry p.2).value.is .noAccess
  return accessed.map Prod.fst

/-- The entries a node lists. -/
def entriesAt (n : AliasNodeId) : List EntryId := (a.nodeEntries.get? n).getD []

/-- The unknown accesses a node lists. -/
def unknownsAt (n : AliasNodeId) : List UnknownEntryId := (a.nodeUnknowns.get? n).getD []

/-- Puts down what a node lists once it is finished. -/
def setNode (n : AliasNodeId) (entries : List EntryId) (unknowns : List UnknownEntryId) : Arena :=
  { a with
    nodeEntries := a.nodeEntries.insert n entries
    nodeUnknowns := a.nodeUnknowns.insert n unknowns }

/-- Takes the lists of a node away. -/
def clearNode (n : AliasNodeId) : Arena :=
  { a with nodeEntries := a.nodeEntries.erase n, nodeUnknowns := a.nodeUnknowns.erase n }

/-- The entry for accesses by name to a memory, which is new where there is none. -/
def trackExplicit (t : AliasTree) (em : EstimateId) : Guarded (Arena × EntryId) := do
  match ← a.explicitEntry? em with
  | some id => return (a, id)
  | none =>
    let n ← home t em
    let id := EntryId.mk a.cells.size
    return ({ a with
      cells := a.cells.push ⟨em, Trait.noAccess, none⟩
      explicit := a.explicit.insert em id
      nodeEntries := a.nodeEntries.update n [] (· ++ [id]) }, id)

/-- The unknown access with a number. -/
def unknown (id : UnknownEntryId) : Guarded UnknownEntry := found a.unknowns[id.index]?

/-- Adds an unknown access and lists it at its node. -/
def addUnknown (inst : InstId) (n : AliasNodeId) (value : Trait) : Arena :=
  let id := UnknownEntryId.mk a.unknowns.size
  { a with
    unknowns := a.unknowns.push { inst, node := n, value }
    explicitUnknowns := a.explicitUnknowns.insert inst id
    nodeUnknowns := a.nodeUnknowns.update n [] (· ++ [id]) }

/-- Counts categories. -/
def count (c : Categories) (count : UInt64) : Arena :=
  { a with statistics := a.statistics + Statistics.tally c count }

end Arena

/-! ## The ledger an arena stands for -/

/-- What the cells say, with the leaders that their links lead to. -/
def spoken (cells : Array Cell) (lead : EntryId → EntryId) : Array Entry :=
  cells.mapIdx fun i c => ⟨c.memory, c.value, lead ⟨i⟩⟩

/-- The ledger with the same lists and with leaders instead of links. -/
def Arena.ledger (a : Arena) (lead : EntryId → EntryId) : Ledger where
  dependences := a.dependences
  statistics := a.statistics
  entries := spoken a.cells lead
  unknowns := a.unknowns
  explicit := a.explicit
  explicitUnknowns := a.explicitUnknowns
  nodeEntries := a.nodeEntries
  nodeUnknowns := a.nodeUnknowns

/-- The numbers that an arena holds are in range. -/
structure Arena.InRange (a : Arena) (f : Function) (t : AliasTree) : Prop where
  memory : ∀ c ∈ a.cells, c.memory.index < t.estimates.size
  dependences : Known t a.dependences
  explicit : ∀ p ∈ a.explicit.toList, p.1.index < t.estimates.size ∧ p.2.index < a.cells.size
  listed : ∀ p ∈ a.nodeEntries.toList, ∀ id ∈ p.2, id.index < a.cells.size
  passed : ∀ p ∈ a.nodeUnknowns.toList, ∀ id ∈ p.2, id.index < a.unknowns.size
  unknowns : ∀ u ∈ a.unknowns, u.inst.index < f.instructions.size

/-- How many entries and unknown accesses there are. -/
structure Extent where
  entries : Nat
  unknowns : Nat

/-- The extent of an arena. -/
def Arena.extent (a : Arena) : Extent := ⟨a.cells.size, a.unknowns.size⟩

/-- An arena of a certain extent stands for a ledger, and its numbers are in range for the function
and the alias tree of `s`. -/
structure Backs (s : Scope) (x : Extent) (a : Arena) (l : Ledger) : Prop where
  extent : a.extent = x
  range : a.InRange s.function s.tree
  linked : ∃ lead, Linked (linksOf a.cells) lead ∧ a.ledger lead = l

section Spoken

variable {cells : Array Cell} {lead : EntryId → EntryId} {id : EntryId}

/-- A cell says its memory and value, and its links say the leader. -/
theorem getElem?_spoken (i : Nat) : (spoken cells lead)[i]?
    = (cells[i]?).map fun c => ⟨c.memory, c.value, lead ⟨i⟩⟩ :=
  Array.getElem?_mapIdx

/-- Where a cell is written that keeps its link, the entry with its number changes and no other. -/
theorem spoken_set {c c' : Cell} {i : Nat} (hc : cells[i]? = some c) {g : Entry → Entry}
    (hg : ∀ id, g ⟨c.memory, c.value, id⟩ = ⟨c'.memory, c'.value, id⟩) :
    spoken (cells.setIfInBounds i c') lead = (spoken cells lead).modify i g := by
  obtain ⟨hi, -⟩ := Array.getElem?_eq_some_iff.mp hc
  refine Array.ext_getElem? fun j => ?_
  rw [getElem?_spoken, Array.getElem?_modify, getElem?_spoken, Array.getElem?_setIfInBounds]
  by_cases hij : i = j
  · rw [if_pos hij, if_pos hij, if_pos hi, ← hij, hc]
    exact congrArg some (hg _).symm
  · rw [if_neg hij, if_neg hij]

/-- A new link leads all that followed its entry to another. -/
theorem spoken_forward {c : Cell} {target : EntryId} (hc : cells[id.index]? = some c) :
    spoken (cells.setIfInBounds id.index { c with forward := some target })
        (fun j => if lead j = id then target else lead j)
      = (spoken cells lead).map (Ledger.relabel id target) := by
  obtain ⟨hid, -⟩ := Array.getElem?_eq_some_iff.mp hc
  have hrelabel (m : EstimateId) (v : Trait) (j : EntryId) :
      Ledger.relabel id target ⟨m, v, lead j⟩
        = ⟨m, v, if lead j = id then target else lead j⟩ := by
    unfold Ledger.relabel
    split <;> rfl
  refine Array.ext_getElem? fun j => ?_
  rw [getElem?_spoken, Array.getElem?_map, getElem?_spoken, Array.getElem?_setIfInBounds]
  by_cases hij : id.index = j
  · rw [if_pos hij, if_pos hid, ← hij, hc]
    exact congrArg some (hrelabel ..).symm
  · rw [if_neg hij, Option.map_map]
    refine congrArg (Option.map · cells[j]?) (funext fun c => ?_)
    exact (hrelabel ..).symm

/-- After a merge of two heads, the target has the meet of both values and leads what the source
led. -/
theorem spoken_merged {source target : EntryId} {cs ct : Cell}
    (hcs : cells[source.index]? = some cs) (hct : cells[target.index]? = some ct)
    (hne : source ≠ target) :
    spoken (merged cells source target cs ct) (fun j => if lead j = source then target else lead j)
      = ((spoken cells lead).modify target.index fun e =>
          { e with value := e.value.meet cs.value }).map (Ledger.relabel source target) := by
  have hnarrow : spoken (cells.setIfInBounds target.index
        { ct with value := ct.value.meet cs.value }) lead
      = (spoken cells lead).modify target.index fun e =>
          { e with value := e.value.meet cs.value } := spoken_set hct fun _ => rfl
  -- The target is written first, while the source still leads itself; then the new link relabels.
  rw [merged, spoken_forward (getElem?_narrowed hcs hne _), hnarrow]

/-- A new entry leads itself. -/
theorem spoken_push (h : Linked (linksOf cells) lead) (em : EstimateId) (v : Trait) :
    spoken (cells.push ⟨em, v, none⟩) lead
      = (spoken cells lead).push ⟨em, v, ⟨cells.size⟩⟩ := by
  have hself : lead ⟨cells.size⟩ = ⟨cells.size⟩ := h.beyond _ (Nat.le_of_eq size_linksOf)
  rw [spoken, Array.mapIdx_push, hself]
  rfl

/-- What the lists of a map hold after one of them has got another item. -/
theorem mem_update_append {κ ι : Type} [DecidableEq κ] {m : OrderedMap κ (List ι)} {k : κ} {x y : ι}
    {p : κ × List ι} (hp : p ∈ (m.update k [] (· ++ [x])).toList) (hy : y ∈ p.2) :
    y = x ∨ ∃ q ∈ m.toList, y ∈ q.2 := by
  rcases OrderedMap.mem_toList_insert hp with rfl | hp
  · rcases List.mem_append.mp hy with hy | hy
    · cases hids : m.get? k with
      | none =>
        rw [hids] at hy
        cases hy
      | some ids =>
        rw [hids] at hy
        exact .inr ⟨(k, ids), OrderedMap.mem_toList_iff.mpr hids, hy⟩
    · exact .inl (List.mem_singleton.mp hy)
  · exact .inr ⟨p, hp, hy⟩

end Spoken

/-! ## Standing for a ledger -/

/-- The links of an arena lead to the leaders of a ledger, and its cells say what the
entries say. -/
def Arena.Stands (a : Arena) (l : Ledger) : Prop :=
  ∃ lead, Linked (linksOf a.cells) lead ∧ a.ledger lead = l

namespace Arena.Stands

variable {a : Arena} {l : Ledger} {id source target : EntryId} {lead : EntryId → EntryId}

/-- The leader of an entry is where its links lead, also for a number without a cell. -/
theorem leader_ledger (h : Linked (linksOf a.cells) lead) (id : EntryId) :
    (a.ledger lead).leader id = lead id := by
  unfold Ledger.leader
  cases hc : a.cells[id.index]? with
  | some c =>
    have hspoken : (a.ledger lead).entries[id.index]? = some ⟨c.memory, c.value, lead id⟩ := by
      rw [Arena.ledger, getElem?_spoken, hc]
      rfl
    rw [hspoken]
  | none =>
    have hspoken : (a.ledger lead).entries[id.index]? = none := by
      rw [Arena.ledger, getElem?_spoken, hc]
      rfl
    rw [hspoken, h.beyond id (by rw [size_linksOf]; exact Array.getElem?_eq_none_iff.mp hc)]

/-- There are as many entries as cells. -/
theorem size_entries (h : a.Stands l) : l.entries.size = a.cells.size := by
  obtain ⟨lead, -, rfl⟩ := h
  exact Array.size_mapIdx

/-- Links are followed to the leader, and the walk ends. -/
theorem resolve (h : a.Stands l) (hid : id.index < a.cells.size) :
    Guarded.resolve a.cells id = .ok (l.leader id) := by
  obtain ⟨lead, hlinked, rfl⟩ := h
  rw [leader_ledger hlinked]
  exact resolve_eq hlinked hid

/-- The leader of an entry in range is in range. -/
theorem leader_lt (h : a.Stands l) (hid : id.index < a.cells.size) :
    (l.leader id).index < a.cells.size := by
  obtain ⟨lead, hlinked, rfl⟩ := h
  rw [leader_ledger hlinked]
  exact size_linksOf ▸ hlinked.lead_lt (size_linksOf.symm ▸ hid)

/-- The cell at the end of the links has none itself and says what the ledger says. -/
theorem head (h : a.Stands l) (hid : id.index < a.cells.size) :
    ∃ c, a.cells[(l.leader id).index]? = some c ∧ c.forward = none
      ∧ l.value id = c.value ∧ l.memory? id = some c.memory := by
  obtain ⟨lead, hlinked, rfl⟩ := h
  obtain ⟨c, hc, hforward⟩ := exists_head hlinked hid
  have hentry : Ledger.entry? (a.ledger lead) id = some ⟨c.memory, c.value, lead (lead id)⟩ := by
    unfold Ledger.entry?
    rw [leader_ledger hlinked]
    show (spoken a.cells lead)[(lead id).index]? = _
    rw [getElem?_spoken, hc]
    rfl
  refine ⟨c, ?_, hforward, ?_, ?_⟩
  · rw [leader_ledger hlinked, hc]
  · rw [Ledger.value, hentry]
    rfl
  · rw [Ledger.memory?, hentry]
    rfl

/-- A change of a cell that keeps its link is one of the entry. -/
theorem change (h : a.Stands l) (hid : id.index < a.cells.size) {f : Cell → Cell}
    {g : Entry → Entry} (hforward : ∀ c, (f c).forward = c.forward)
    (hg : ∀ c id, g ⟨c.memory, c.value, id⟩ = ⟨(f c).memory, (f c).value, id⟩) :
    ∃ cells, Guarded.change a.cells id f = .ok cells ∧ cells.size = a.cells.size
      ∧ (∀ c' ∈ cells, c' ∈ a.cells ∨ ∃ c ∈ a.cells, c' = f c)
      ∧ ({ a with cells } : Arena).Stands (l.modifyEntry id g) := by
  have hresolve := h.resolve hid
  obtain ⟨lead, hlinked, rfl⟩ := h
  obtain ⟨c, hc, -⟩ := exists_head hlinked hid
  refine ⟨a.cells.setIfInBounds (lead id).index (f c), ?_, Array.size_setIfInBounds, ?_, lead,
    ?_, ?_⟩
  · rw [Guarded.change, hresolve, leader_ledger hlinked, ok_bind, write_eq hc]
  · intro c' hc'
    rcases Array.mem_or_eq_of_mem_setIfInBounds hc' with hc' | rfl
    · exact .inl hc'
    · exact .inr ⟨c, Array.mem_of_getElem? hc, rfl⟩
  -- The links are those of before, and so are the leaders.
  · rw [linksOf_set_of_forward hc (hforward c)]
    exact hlinked
  · have hentries : spoken (a.cells.setIfInBounds (lead id).index (f c)) lead
        = (spoken a.cells lead).modify (lead id).index g := spoken_set hc (hg c)
    rw [Ledger.modifyEntry, leader_ledger hlinked]
    exact congrArg (fun entries => { a.ledger lead with entries }) hentries

/-- What the fold of two groups does to the ledger of an arena, entry by entry. -/
theorem ledger_fold_eq (h : Linked (linksOf a.cells) lead) (hne : lead source ≠ lead target)
    {cs : Cell} (hcs : a.cells[(lead source).index]? = some cs) :
    (a.ledger lead).fold source target =
      { a.ledger lead with
        entries := ((spoken a.cells lead).modify (lead target).index fun e =>
          { e with value := e.value.meet cs.value }).map
            (Ledger.relabel (lead source) (lead target)) } := by
  have hvalue : (a.ledger lead).value (lead source) = cs.value := by
    rw [Ledger.value, Ledger.entry?, leader_ledger h, h.lead_lead]
    show (((spoken a.cells lead)[(lead source).index]?).map _).getD _ = _
    rw [getElem?_spoken, hcs]
    rfl
  -- Both groups are named by their leaders from here on, so narrowing the target finds it at once.
  rw [Ledger.fold, leader_ledger h, leader_ledger h]
  refine (if_neg hne).trans ?_
  rw [hvalue, Ledger.narrow, Ledger.modifyEntry, leader_ledger h, h.lead_lead]
  rfl

/-- A fold sets one link, or none within a group. -/
theorem fold (h : a.Stands l) (hs : source.index < a.cells.size)
    (ht : target.index < a.cells.size) :
    ∃ cells, foldCells a.cells source target = .ok cells ∧ cells.size = a.cells.size
      ∧ (∀ c' ∈ cells, ∃ c ∈ a.cells, c'.memory = c.memory)
      ∧ ({ a with cells } : Arena).Stands (l.fold source target) := by
  obtain ⟨lead, hlinked, rfl⟩ := h
  -- Within one group nothing is folded, and a link from a head to itself would be a cycle.
  by_cases heq : lead source = lead target
  · have hsame : (a.ledger lead).fold source target = a.ledger lead := by
      rw [Ledger.fold, leader_ledger hlinked, leader_ledger hlinked]
      exact if_pos heq
    rw [hsame]
    exact ⟨a.cells, foldCells_eq_self hlinked hs ht heq, rfl, fun c hc => ⟨c, hc, rfl⟩, lead,
      hlinked, rfl⟩
  · obtain ⟨cs, ct, hcs, hct, hfold⟩ := foldCells_eq hlinked hs ht heq
    rw [ledger_fold_eq hlinked heq hcs, ← spoken_merged hcs hct heq]
    refine ⟨_, hfold, size_merged, ?_, _, ?_, rfl⟩
    · intro c hc
      rcases Array.mem_or_eq_of_mem_setIfInBounds hc with hc | rfl
      · rcases Array.mem_or_eq_of_mem_setIfInBounds hc with hc | rfl
        · exact ⟨c, hc, rfl⟩
        · exact ⟨ct, Array.mem_of_getElem? hct, rfl⟩
      · exact ⟨cs, Array.mem_of_getElem? hcs, rfl⟩
    · show Linked (linksOf (merged a.cells (lead source) (lead target) cs ct)) _
      rw [linksOf_merged hct]
      exact hlinked.fold (hlinked.head (size_linksOf.symm ▸ hs))
        (hlinked.head (size_linksOf.symm ▸ ht)) heq

/-- A new cell is a new entry. -/
theorem push (h : a.Stands l) (memory : EstimateId) (value : Trait) :
    ({ a with cells := a.cells.push ⟨memory, value, none⟩ } : Arena).Stands
      (l.addEntry memory value).1 := by
  have hsize := h.size_entries
  obtain ⟨lead, hlinked, rfl⟩ := h
  refine ⟨lead, ?_, ?_⟩
  · show Linked (linksOf (a.cells.push _)) lead
    rw [linksOf, Array.map_push]
    exact hlinked.push
  -- The number of the new entry lay outside of the cells, where every number leads itself.
  · unfold Ledger.addEntry
    dsimp only
    rw [hsize]
    exact congrArg (fun entries => { a.ledger lead with entries })
      (spoken_push hlinked memory value)

end Arena.Stands

/-! ## Backed ledgers -/

variable {s : Scope} {x : Extent} {a : Arena} {l : Ledger} {id source target : EntryId}

/-- Before anything is tracked, every entry would lead itself. -/
theorem Backs.start {m : DependenceMap} (h : Known s.tree m) :
    Backs s ⟨0, 0⟩ { dependences := m } { dependences := m } := by
  have hlinked : Linked (linksOf #[]) id := by
    refine ⟨fun id hid => ?_, fun _ _ => rfl⟩
    rw [size_linksOf] at hid
    exact absurd hid (Nat.not_lt_zero _)
  refine ⟨rfl, ?_, id, hlinked, rfl⟩
  constructor
  case dependences => exact h
  all_goals exact fun _ hp => nomatch hp

namespace Backs

/-! ## What arena and ledger share -/

/-- Arena and ledger share the dependences. -/
theorem dependences_eq (b : Backs s x a l) : a.dependences = l.dependences := by
  obtain ⟨-, -, lead, -, rfl⟩ := b
  rfl

/-- Arena and ledger share the statistics. -/
theorem statistics_eq (b : Backs s x a l) : a.statistics = l.statistics := by
  obtain ⟨-, -, lead, -, rfl⟩ := b
  rfl

/-- Arena and ledger share which memory is tracked by name. -/
theorem explicit_eq (b : Backs s x a l) : a.explicit = l.explicit := by
  obtain ⟨-, -, lead, -, rfl⟩ := b
  rfl

/-- The dependences of a backed ledger are about memory in range. -/
theorem known (b : Backs s x a l) : Known s.tree a.dependences := b.range.dependences

/-! ## Looking entries up -/

/-- A number in range resolves to the leader. -/
theorem resolve (b : Backs s x a l) (hid : id.index < x.entries) :
    Guarded.resolve a.cells id = .ok (l.leader id) := by
  obtain ⟨rfl, -, hstands⟩ := b
  exact Arena.Stands.resolve hstands hid

/-- The leader of an entry in range is in range. -/
theorem leader_lt (b : Backs s x a l) (hid : id.index < x.entries) :
    (l.leader id).index < x.entries := by
  obtain ⟨rfl, -, hstands⟩ := b
  exact Arena.Stands.leader_lt hstands hid

/-- What is looked up in the arena is what the ledger says. -/
theorem entry (b : Backs s x a l) (hid : id.index < x.entries) :
    ∃ c, a.entry id = .ok c ∧ l.value id = c.value ∧ l.memory? id = some c.memory
      ∧ c.memory.index < s.tree.estimates.size := by
  have hresolve := b.resolve hid
  obtain ⟨rfl, hrange, hstands⟩ := b
  obtain ⟨c, hc, -, hvalue, hmemory⟩ := Arena.Stands.head hstands hid
  refine ⟨c, ?_, hvalue, hmemory, hrange.memory c (Array.mem_of_getElem? hc)⟩
  rw [Arena.entry, hresolve, ok_bind, cell, hc]
  rfl

/-! ## Changing entries -/

/-- As many cells, and none with a memory out of range: the numbers stay in range. -/
theorem inRange_of_cells {f : Function} {t : AliasTree} (h : a.InRange f t) {cells : Array Cell}
    (hsize : cells.size = a.cells.size)
    (hmemory : ∀ c ∈ cells, c.memory.index < t.estimates.size) :
    ({ a with cells } : Arena).InRange f t := by
  refine { h with memory := hmemory, explicit := ?_, listed := ?_ }
  · exact fun p hp => hsize.symm ▸ h.explicit p hp
  · exact fun p hp id hid => hsize.symm ▸ h.listed p hp id hid

/-- A change of a cell that keeps its link and its memory in range is mirrored. -/
theorem change (b : Backs s x a l) (hid : id.index < x.entries) {f : Cell → Cell}
    {g : Entry → Entry} (hforward : ∀ c, (f c).forward = c.forward)
    (hmemory : ∀ c, c.memory.index < s.tree.estimates.size →
      (f c).memory.index < s.tree.estimates.size)
    (hg : ∀ c id, g ⟨c.memory, c.value, id⟩ = ⟨(f c).memory, (f c).value, id⟩) :
    Mirrors (fun cells l => Backs s x { a with cells } l) (change a.cells id f)
      (.ok (l.modifyEntry id g)) := by
  obtain ⟨rfl, hrange, hstands⟩ := b
  obtain ⟨cells, hchange, hsize, hcells, hchanged⟩ :=
    Arena.Stands.change hstands hid hforward hg
  rw [hchange]
  refine .ok ⟨congrArg (Extent.mk · _) hsize, inRange_of_cells hrange hsize ?_, hchanged⟩
  intro c' hc'
  rcases hcells c' hc' with hc' | ⟨c, hc, rfl⟩
  · exact hrange.memory c' hc'
  · exact hmemory c (hrange.memory c hc)

/-- Narrowing a group is mirrored. -/
theorem narrow (b : Backs s x a l) (hid : id.index < x.entries) (v : Trait) :
    Mirrors (Backs s x) (a.narrow id v) (.ok (l.narrow id v)) := by
  have hchange := b.change hid (f := fun c => { c with value := c.value.meet v })
    (g := fun e => { e with value := e.value.meet v }) (fun _ => rfl) (fun _ h => h) fun _ _ => rfl
  exact hchange.next fun _ h => .ok h

/-- Moving a group to memory in range is mirrored. -/
theorem setMemory (b : Backs s x a l) (hid : id.index < x.entries) {m : EstimateId}
    (hm : m.index < s.tree.estimates.size) :
    Mirrors (Backs s x) (a.setMemory id m) (.ok (l.setMemory id m)) := by
  have hchange := b.change hid (f := fun c => { c with memory := m })
    (g := fun e => { e with memory := m }) (fun _ => rfl) (fun _ _ => hm) fun _ _ => rfl
  exact hchange.next fun _ h => .ok h

/-- Folding two groups is mirrored: no cell gets a memory that none had. -/
theorem fold (b : Backs s x a l) (hs : source.index < x.entries) (ht : target.index < x.entries) :
    Mirrors (Backs s x) (a.fold source target) (.ok (l.fold source target)) := by
  obtain ⟨rfl, hrange, hstands⟩ := b
  obtain ⟨cells, hfold, hsize, hcells, hfolded⟩ := Arena.Stands.fold hstands hs ht
  rw [Arena.fold, hfold]
  refine .ok ⟨congrArg (Extent.mk · _) hsize, inRange_of_cells hrange hsize ?_, hfolded⟩
  intro c' hc'
  obtain ⟨c, hc, hmemory⟩ := hcells c' hc'
  rw [hmemory]
  exact hrange.memory c hc

/-! ## Accesses by name -/

variable {em : EstimateId}

/-- What is tracked by name is in range, memory and entry. -/
theorem explicit_lt (b : Backs s x a l) {p : EstimateId × EntryId}
    (hp : p ∈ l.explicit.toList) : p.1.index < s.tree.estimates.size ∧ p.2.index < x.entries := by
  obtain ⟨rfl, hrange, lead, -, rfl⟩ := b
  exact hrange.explicit p hp

/-- The entry for a memory is looked up as in the ledger. -/
theorem explicitEntry? (b : Backs s x a l) (em : EstimateId) :
    a.explicitEntry? em = .ok (l.explicitEntry? em) := by
  unfold Arena.explicitEntry? Ledger.explicitEntry?
  rw [b.explicit_eq]
  cases hid : l.explicit.get? em with
  | none => rfl
  | some id =>
    show Guarded.resolve a.cells id >>= _ = _
    rw [b.resolve (b.explicit_lt (OrderedMap.mem_toList_iff.mpr hid)).2]
    rfl

/-- The entry found for a memory is in range. -/
theorem explicitEntry?_lt (b : Backs s x a l) (h : l.explicitEntry? em = some id) :
    id.index < x.entries := by
  obtain ⟨first, hfirst, rfl⟩ := Option.map_eq_some_iff.mp h
  exact b.leader_lt (b.explicit_lt (OrderedMap.mem_toList_iff.mpr hfirst)).2

/-- Whether a group has tracked memory of a node is answered as by the ledger. -/
theorem isExplicitIn (b : Backs s x a l) (hid : id.index < x.entries) (n : AliasNodeId) :
    a.isExplicitIn s.tree id n = .ok (l.isExplicitIn s.tree id n) := by
  rw [Arena.isExplicitIn, b.resolve hid, ok_bind, b.explicit_eq]
  refine anyM_eq ?_
  rintro ⟨em, e⟩ hp
  obtain ⟨hem, hentry⟩ := b.explicit_lt hp
  show _ = Except.ok (l.leader e == l.leader id && s.tree.home em == n)
  rw [b.resolve hentry, ok_bind]
  -- The home of a memory is asked for only where the groups agree, so the guard is met there alone.
  by_cases hlead : l.leader e = l.leader id
  · rw [if_pos hlead, home_eq hem, hlead, beq_self_eq_true, Bool.true_and]
    rfl
  · rw [if_neg hlead, beq_eq_false_iff_ne.mpr hlead, Bool.false_and]
    rfl

/-- The explicitly accessed memory is that of the ledger. -/
theorem explicitlyAccessed (b : Backs s x a l) :
    a.explicitlyAccessed = .ok l.explicitlyAccessed := by
  rw [Arena.explicitlyAccessed, b.explicit_eq,
    filterM_eq (q := fun p => !(l.value p.2).is .noAccess)]
  · rfl
  · intro p hp
    obtain ⟨c, hc, hvalue, -⟩ := b.entry (b.explicit_lt hp).2
    rw [hc, hvalue]
    rfl

/-- Explicitly accessed memory is in range. -/
theorem mem_explicitlyAccessed_lt (b : Backs s x a l) (h : em ∈ l.explicitlyAccessed) :
    em.index < s.tree.estimates.size := by
  obtain ⟨p, hp, rfl⟩ := List.mem_map.mp h
  exact (b.explicit_lt (List.mem_filter.mp hp).1).1

/-- The entry of a memory is found or added behind the others. -/
theorem trackExplicit (b : Backs s x a l) (hem : em.index < s.tree.estimates.size) :
    Mirrors (fun p q => p.2 = q.2 ∧ ∃ x', p.2.index < x'.entries ∧ Backs s x' p.1 q.1)
      (a.trackExplicit s.tree em) (.ok (l.trackExplicit s.tree em)) := by
  rw [Arena.trackExplicit, b.explicitEntry?, ok_bind, Ledger.trackExplicit]
  cases hid : l.explicitEntry? em with
  | some id => exact .ok ⟨rfl, x, b.explicitEntry?_lt hid, b⟩
  | none =>
    -- The new cell gets the number after the last, so every old number stays in range.
    obtain ⟨rfl, hrange, first, hfirst, rfl⟩ := b
    obtain ⟨lead, hlinked, hledger⟩ := Arena.Stands.push ⟨first, hfirst, rfl⟩ em Trait.noAccess
    have hnew : (a.ledger first).addEntry em Trait.noAccess
        = (({ a with cells := a.cells.push ⟨em, Trait.noAccess, none⟩ } : Arena).ledger lead,
          ⟨a.cells.size⟩) :=
      Prod.ext hledger.symm (congrArg EntryId.mk Array.size_mapIdx)
    show Mirrors _ (home s.tree em >>= _) _
    rw [home_eq hem, ok_bind]
    dsimp only
    rw [hnew]
    have hsize : (a.cells.push ⟨em, Trait.noAccess, none⟩).size = a.cells.size + 1 :=
      Array.size_push ..
    refine .ok ⟨rfl, ⟨a.cells.size + 1, a.unknowns.size⟩, Nat.lt_succ_self _, ?_, ?_, lead, hlinked,
      rfl⟩
    · exact congrArg (Extent.mk · _) hsize
    · refine { hrange with memory := ?_, explicit := ?_, listed := ?_ }
      · intro c hc
        rcases Array.mem_push.mp hc with hc | rfl
        · exact hrange.memory c hc
        · exact hem
      · intro p hp
        rw [hsize]
        rcases OrderedMap.mem_toList_insert hp with rfl | hp
        · exact ⟨hem, Nat.lt_succ_self _⟩
        · exact (hrange.explicit p hp).imp id (Nat.lt_succ_of_lt ·)
      · intro p hp id hid
        rw [hsize]
        rcases mem_update_append hp hid with rfl | ⟨q, hq, hid⟩
        · exact Nat.lt_succ_self _
        · exact Nat.lt_succ_of_lt (hrange.listed q hq id hid)

/-! ## Lists of nodes -/

/-- The entries listed at a node are those of the ledger. -/
theorem entriesAt (b : Backs s x a l) (n : AliasNodeId) : a.entriesAt n = l.entriesAt n := by
  obtain ⟨-, -, lead, -, rfl⟩ := b
  rfl

/-- The unknown accesses listed at a node are those of the ledger. -/
theorem unknownsAt (b : Backs s x a l) (n : AliasNodeId) : a.unknownsAt n = l.unknownsAt n := by
  obtain ⟨-, -, lead, -, rfl⟩ := b
  rfl

/-- What a node lists is in range. -/
theorem entriesAt_lt (b : Backs s x a l) {n : AliasNodeId} (h : id ∈ l.entriesAt n) :
    id.index < x.entries := by
  obtain ⟨rfl, hrange, lead, -, rfl⟩ := b
  unfold Ledger.entriesAt at h
  cases hids : (a.ledger lead).nodeEntries.get? n with
  | none =>
    rw [hids] at h
    cases h
  | some ids =>
    rw [hids] at h
    exact hrange.listed (n, ids) (OrderedMap.mem_toList_iff.mpr hids) id h

/-- The unknown accesses listed at a node are in range. -/
theorem unknownsAt_lt (b : Backs s x a l) {n : AliasNodeId} {id : UnknownEntryId}
    (h : id ∈ l.unknownsAt n) : id.index < x.unknowns := by
  obtain ⟨rfl, hrange, lead, -, rfl⟩ := b
  unfold Ledger.unknownsAt at h
  cases hids : (a.ledger lead).nodeUnknowns.get? n with
  | none =>
    rw [hids] at h
    cases h
  | some ids =>
    rw [hids] at h
    exact hrange.passed (n, ids) (OrderedMap.mem_toList_iff.mpr hids) id h

/-- Lists in range may be put down. -/
theorem setNode (b : Backs s x a l) (n : AliasNodeId) {entries : List EntryId}
    {unknowns : List UnknownEntryId} (hentries : ∀ id ∈ entries, id.index < x.entries)
    (hunknowns : ∀ id ∈ unknowns, id.index < x.unknowns) :
    Backs s x (a.setNode n entries unknowns) (l.setNode n entries unknowns) := by
  obtain ⟨rfl, hrange, lead, hlinked, rfl⟩ := b
  refine ⟨rfl, ?_, lead, hlinked, rfl⟩
  refine { hrange with listed := ?_, passed := ?_ }
  · intro p hp
    rcases OrderedMap.mem_toList_insert hp with rfl | hp
    · exact hentries
    · exact hrange.listed p hp
  · intro p hp
    rcases OrderedMap.mem_toList_insert hp with rfl | hp
    · exact hunknowns
    · exact hrange.passed p hp

/-- Lists may be taken away. -/
theorem clearNode (b : Backs s x a l) (n : AliasNodeId) :
    Backs s x (a.clearNode n) (l.clearNode n) := by
  obtain ⟨rfl, hrange, lead, hlinked, rfl⟩ := b
  refine ⟨rfl, ?_, lead, hlinked, rfl⟩
  exact { hrange with
    listed := fun p hp => hrange.listed p (List.mem_filter.mp hp).1
    passed := fun p hp => hrange.passed p (List.mem_filter.mp hp).1 }

/-- Counting touches no number. -/
theorem count (b : Backs s x a l) (c : Categories) (k : UInt64) :
    Backs s x (a.count c k) (l.count c k) := by
  obtain ⟨rfl, hrange, lead, hlinked, rfl⟩ := b
  exact ⟨rfl, { hrange with }, lead, hlinked, rfl⟩

/-! ## Unknown accesses -/

/-- An unknown access in range is found, and the instruction it names is in range. -/
theorem unknown (b : Backs s x a l) {id : UnknownEntryId} (hid : id.index < x.unknowns) :
    ∃ u, a.unknown id = .ok u ∧ l.unknown? id = some u
      ∧ u.inst.index < s.function.instructions.size := by
  obtain ⟨rfl, hrange, lead, -, rfl⟩ := b
  obtain ⟨u, hu, hok⟩ := exists_found hid
  exact ⟨u, hok, hu, hrange.unknowns u (Array.mem_of_getElem? hu)⟩

/-- An unknown access of an instruction in range may be added, and the extent grows by it. -/
theorem addUnknown (b : Backs s x a l) {inst : InstId}
    (hinst : inst.index < s.function.instructions.size) (n : AliasNodeId) (v : Trait) :
    ∃ x', Backs s x' (a.addUnknown inst n v) (l.addUnknown inst n v).1 := by
  obtain ⟨rfl, hrange, lead, hlinked, rfl⟩ := b
  refine ⟨_, rfl, ?_, lead, hlinked, rfl⟩
  have hsize : (a.unknowns.push ⟨inst, n, v⟩).size = a.unknowns.size + 1 := Array.size_push ..
  refine { hrange with passed := ?_, unknowns := ?_ }
  · intro p hp id hid
    show id.index < (a.unknowns.push ⟨inst, n, v⟩).size
    rw [hsize]
    rcases mem_update_append hp hid with rfl | ⟨q, hq, hid⟩
    · exact Nat.lt_succ_self _
    · exact Nat.lt_succ_of_lt (hrange.passed q hq id hid)
  · intro u hu
    rcases Array.mem_push.mp hu with hu | rfl
    · exact hrange.unknowns u hu
    · exact hinst

end Backs

end Privatization.Guarded
