import Privatization.Classification.Summary
import Privatization.Proofs.Guarded.Arena

/-!
# Guarded summaries

The result of a finished node, read off an arena: the copies its entries need, the categories of its
memory and its unknown accesses, and the record of the node. Each step mirrors the one on the ledger
behind the arena and leaves its extent alone, and what a result names is in range.
-/

namespace Privatization.Guarded

section Summaries

variable (s : Scope)

/-! ## Copy-in refinement -/

/-- Whether definitions write a memory at each of the pointers that its record lists. -/
def writes (defs : ReachingDefs) (em : EstimateId) : Guarded Bool :=
  return (← estimate s.tree em).locations.all defs.must.contains

/-- Whether a memory is written on the path that matters: to the exit for the last iteration, and to
the latch or the exit for the one before it. -/
def writtenFor (last : Bool) (em : EstimateId) : Guarded Bool :=
  if last then writes s s.exit em
  else do if ← writes s s.latch em then return true else writes s s.exit em

/-- The undivided parts of a memory that are written on that path. -/
def definedLeaves (last : Bool) (em : EstimateId) : Guarded (List EstimateId) := do
  let leaves ← (← estimateDescendants s.tree em).filterM fun leaf =>
    return (← estimateChildren s.tree leaf).isEmpty
  leaves.filterM (writtenFor s last)

/-- Calls for the value from before the loop where a last value survives that is not written as a
whole. -/
def refineCopyIn (a : Arena) (id : EntryId) (c : Categories) :
    Guarded (Arena × Categories × Bool) :=
  if !c.has .firstPrivate && c.meets {.lastPrivate, .secondToLastPrivate} then do
    let em := (← a.entry id).memory
    if ← covers s.tree em (← definedLeaves s (c.has .lastPrivate) em) then return (a, c, false)
    else return (← a.narrow id Trait.firstPrivate, c ∪ {.firstPrivate}, true)
  else return (a, c, false)

/-! ## Constituents -/

/-- The dependences of a memory and its parts, merged. -/
def dependenceOf (a : Arena) (em : EstimateId) : Guarded (Option DependenceRecord) := do
  match ← a.dependences.toList.filterM fun p => isEstimateAncestor s.tree em p.1 with
  | [] => return none
  | pieces => return some (pieces.foldl (fun r p => r.merge p.2) ∅)

/-- Whether memory of the node was accessed by name in more than its address. -/
def isExplicit (a : Arena) (n : AliasNodeId) (em : EstimateId) : Guarded Bool := do
  if (← home s.tree em) == n then
    match ← a.explicitEntry? em with
    | none => return false
    | some id => return !(← a.entry id).value.is .noAccess
  else return false

/-- The result for the group of an entry. Its categories are counted where they are explicit. -/
def memoryTrait (a : Arena) (n : AliasNodeId) (id : EntryId) :
    Guarded (Arena × MemoryTrait × Bool) := do
  let e ← a.entry id
  let count : UInt64 := if ← a.isExplicitIn s.tree id n then 1 else 0
  let (a, c, refined) ← refineCopyIn s (a.count e.value.categories count) id e.value.categories
  let a := if refined then a.count {.firstPrivate} count else a
  let explicit ← isExplicit s a n e.memory
  let c := if explicit then c ∪ {.explicitAccess} else c
  return (a, ⟨e.memory, c, ← dependenceOf s a e.memory⟩, explicit)

/-! ## Nodes -/

/-- A node summary under way. -/
structure Draft where
  arena : Arena
  combined : Trait := Trait.noAccess
  explicit : Bool := false
  memories : List MemoryTrait := []
  unknowns : List UnknownTrait := []

/-- Adds a group to the summary of its node. -/
def addMemory (n : AliasNodeId) (d : Draft) (id : EntryId) : Guarded Draft := do
  let combined := d.combined.meet (← d.arena.entry id).value
  let (arena, m, explicit) ← memoryTrait s d.arena n id
  return { d with
    arena, combined, explicit := d.explicit || explicit, memories := d.memories ++ [m] }

/-- Adds an unknown access, which is counted at the node it is attributed to. -/
def addUnknown (n : AliasNodeId) (d : Draft) (id : UnknownEntryId) : Guarded Draft := do
  let u ← d.arena.unknown id
  let c := u.value.categories
  let own := u.node == n
  let explicit := own && !u.value.is .noAccess
  return { d with
    arena := d.arena.count c (if own then 1 else 0)
    combined := d.combined.meet u.value
    explicit := d.explicit || explicit
    unknowns := d.unknowns ++ [⟨u.inst, if explicit then c ∪ {.explicitAccess} else c⟩] }

/-- The result for a node with several constituents, under the summary of their values. -/
def mixedTrait (a : Arena) (n : AliasNodeId) (entries : List EntryId)
    (unknowns : List UnknownEntryId) : Guarded (Arena × NodeTrait) := do
  let d ← entries.foldlM (addMemory s n) { arena := a }
  let d ← unknowns.foldlM (addUnknown n) d
  let c := (d.combined.meet d.combined.summary).categories
  let c := if d.explicit then c ∪ {.explicitAccess} else c
  return (d.arena, { node := n, categories := c, memories := d.memories, unknowns := d.unknowns })

/-- Puts the result of a node down. A node of one group is reported as that group. -/
def storeResults (n : AliasNodeId) (entries : List EntryId) (unknowns : List UnknownEntryId)
    (a : Arena) (m : TraitMap) : Guarded (Arena × TraitMap) :=
  match entries, unknowns with
  | [], [] => return (a, m)
  | [id], [] => do
    let (a, t, _) ← memoryTrait s a n id
    return (a, m.record { node := n, categories := t.categories, memories := [t] })
  | entries, unknowns => do
    let (a, t) ← mixedTrait s a n entries unknowns
    return (a, m.record t)

end Summaries

/-! ## Copy-in refinement mirrors that of the engine -/

variable {s : Scope} {x : Extent} {a : Arena} {l : Ledger} {id : EntryId} {em : EstimateId}

/-- Whether definitions write a memory is read from its record. -/
theorem writes_eq (defs : ReachingDefs) (h : em.index < s.tree.estimates.size) :
    writes s defs em = .ok (s.writes defs em) := by
  obtain ⟨m, hm, hok⟩ := estimate_eq h
  rw [writes, hok, Scope.writes, hm]
  rfl

theorem writtenFor_eq (last : Bool) (h : em.index < s.tree.estimates.size) :
    writtenFor s last em = .ok (s.writtenFor last em) := by
  unfold writtenFor Scope.writtenFor
  cases last with
  | true => exact writes_eq _ h
  | false =>
    show writes s s.latch em >>= _ = Except.ok (s.writes s.latch em || s.writes s.exit em)
    rw [writes_eq _ h, writes_eq _ h]
    cases s.writes s.latch em <;> rfl

/-- The leaves below memory in range are in range themselves. -/
theorem definedLeaves_eq (last : Bool) (h : em.index < s.tree.estimates.size) :
    definedLeaves s last em = .ok (s.definedLeaves last em) := by
  have hleaves : ((s.tree.estimateDescendants em).filterM fun leaf =>
      return (← estimateChildren s.tree leaf).isEmpty)
      = .ok ((s.tree.estimateDescendants em).filter s.tree.isLeaf) := by
    refine filterM_eq fun leaf hleaf => ?_
    rw [estimateChildren_eq (AliasTree.mem_estimateDescendants_lt h hleaf)]
    rfl
  rw [definedLeaves, estimateDescendants_eq h, ok_bind, hleaves, ok_bind,
    -- The engine tests both at once, so the filters are joined in the other order.
    filterM_eq (q := s.writtenFor last), List.filter_filter, Scope.definedLeaves]
  · exact congrArg Except.ok (List.filter_congr fun _ _ => Bool.and_comm ..)
  · intro leaf hleaf
    exact writtenFor_eq last (AliasTree.mem_estimateDescendants_lt h (List.mem_filter.mp hleaf).1)

/-- The copy refinement is mirrored: the pieces it measures are parts of memory in range. -/
theorem refineCopyIn_mirrors (b : Backs s x a l) (hid : id.index < x.entries) (c : Categories) :
    Mirrors (fun p q => Backs s x p.1 q.1 ∧ p.2 = q.2) (refineCopyIn s a id c)
      (.ok (s.refineCopyIn l id c)) := by
  obtain ⟨e, he, -, hmemory, hem⟩ := b.entry hid
  unfold refineCopyIn Scope.refineCopyIn
  rw [hmemory, Option.any_some, Scope.needsCopyIn]
  cases !c.has .firstPrivate && c.meets {.lastPrivate, .secondToLastPrivate} with
  | false => exact .ok ⟨b, rfl⟩
  | true =>
    have hleaves : ∀ leaf ∈ s.definedLeaves (c.has .lastPrivate) e.memory,
        leaf.index < s.tree.estimates.size := fun leaf hleaf =>
      AliasTree.mem_estimateDescendants_lt hem (List.mem_filter.mp hleaf).1
    show Mirrors _ (a.entry id >>= _) _
    rw [he, ok_bind]
    dsimp only
    rw [definedLeaves_eq _ hem, ok_bind, covers_eq hem hleaves, ok_bind, Bool.true_and]
    cases s.tree.covers e.memory (s.definedLeaves (c.has .lastPrivate) e.memory) with
    | true => exact .ok ⟨b, rfl⟩
    | false => exact (b.narrow hid _).next fun a' b' => .ok ⟨b', rfl⟩

/-! ## Constituents mirror those of the engine -/

/-- Dependences are kept under memory in range, so each of them can be compared. -/
theorem dependenceOf_eq (b : Backs s x a l) (em : EstimateId) :
    dependenceOf s a em = .ok (l.dependenceOf s.tree em) := by
  have hpieces : (a.dependences.toList.filterM fun p => isEstimateAncestor s.tree em p.1)
      = .ok (l.dependences.toList.filter fun p => s.tree.isEstimateAncestor em p.1) := by
    rw [← b.dependences_eq]
    exact filterM_eq fun p hp => isEstimateAncestor_eq em (b.known p hp)
  rw [dependenceOf, hpieces, ok_bind, Ledger.dependenceOf]
  cases l.dependences.toList.filter fun p => s.tree.isEstimateAncestor em p.1 <;> rfl

/-- The mark of a memory is that of the engine. -/
theorem isExplicit_eq (b : Backs s x a l) (n : AliasNodeId)
    (hem : em.index < s.tree.estimates.size) :
    isExplicit s a n em = .ok (l.isExplicit s.tree n em) := by
  rw [isExplicit, home_eq hem, ok_bind, Ledger.isExplicit, b.explicitEntry?]
  cases s.tree.home em == n with
  | false => rfl
  | true =>
    show (Except.ok (l.explicitEntry? em) : Guarded _) >>= _ = _
    rw [ok_bind]
    cases hid : l.explicitEntry? em with
    | none => rfl
    | some id =>
      obtain ⟨e, he, hvalue, -⟩ := b.entry (b.explicitEntry?_lt hid)
      dsimp only
      rw [he, ok_bind, Option.any_some, hvalue]
      rfl

/-- What a result for a node names is in range. -/
def NamesKnown (f : Function) (t : AliasTree) (r : NodeTrait) : Prop :=
  (∀ m ∈ r.memories, m.memory.index < t.estimates.size)
    ∧ ∀ u ∈ r.unknowns, u.inst.index < f.instructions.size

/-- Arena and ledger are as related as before, and both give the same result for an entry. -/
def SameTrait (s : Scope) (x : Extent) (p : Arena × MemoryTrait × Bool)
    (q : Ledger × Option (MemoryTrait × Bool)) : Prop :=
  Backs s x p.1 q.1 ∧ q.2 = some p.2 ∧ p.2.1.memory.index < s.tree.estimates.size

/-- The result for a group is mirrored. -/
theorem memoryTrait_mirrors (b : Backs s x a l) (hid : id.index < x.entries) (n : AliasNodeId) :
    Mirrors (SameTrait s x) (memoryTrait s a n id) (.ok (s.memoryTrait l n id)) := by
  obtain ⟨e, he, hvalue, hmemory, hem⟩ := b.entry hid
  rw [memoryTrait, he, ok_bind, b.isExplicitIn hid, ok_bind, Scope.memoryTrait, hmemory]
  dsimp only
  rw [hvalue]
  -- Both sides count the same number of pieces, whatever it is.
  generalize (if l.isExplicitIn s.tree id n = true then (1 : UInt64) else 0) = count
  refine (refineCopyIn_mirrors (b.count _ count) hid e.value.categories).next ?_
  rintro ⟨a, c, refined⟩ ⟨b, hsame⟩
  generalize s.refineCopyIn (l.count e.value.categories count) id e.value.categories = q at b hsame
  obtain ⟨l, c', refined'⟩ := q
  obtain ⟨rfl, rfl⟩ := Prod.mk.inj hsame
  have b : Backs s x (if refined then a.count {.firstPrivate} count else a)
      (if refined then l.count {.firstPrivate} count else l) := by
    cases refined with
    | true => exact b.count _ _
    | false => exact b
  dsimp only
  rw [isExplicit_eq b n hem, ok_bind, dependenceOf_eq b]
  exact .ok ⟨b, rfl, hem⟩

/-! ## Nodes mirror those of the engine -/

/-- Both summaries have come equally far. -/
structure SameDraft (s : Scope) (x : Extent) (d : Draft) (d' : Scope.Draft) : Prop where
  memories : ∀ m ∈ d.memories, m.memory.index < s.tree.estimates.size
  unknowns : ∀ u ∈ d.unknowns, u.inst.index < s.function.instructions.size
  same : ∃ l, Backs s x d.arena l ∧ d' = ⟨l, d.combined, d.explicit, d.memories, d.unknowns⟩

/-- A group is added to both summaries alike. -/
theorem addMemory_mirrors {d : Draft} {d' : Scope.Draft} (h : SameDraft s x d d')
    (hid : id.index < x.entries) (n : AliasNodeId) :
    Mirrors (SameDraft s x) (addMemory s n d id) (.ok (s.addMemory n d' id)) := by
  obtain ⟨hmemories, hunknowns, l, b, rfl⟩ := h
  obtain ⟨e, he, hvalue, -⟩ := b.entry hid
  rw [addMemory, he, ok_bind]
  refine (memoryTrait_mirrors b hid n).next ?_
  rintro ⟨a, m, explicit⟩ ⟨b, hsome, hm⟩
  unfold Scope.addMemory
  dsimp only
  generalize s.memoryTrait l n id = q at b hsome
  obtain ⟨l', result⟩ := q
  obtain rfl : result = some (m, explicit) := hsome
  rw [hvalue]
  refine .ok ⟨?_, hunknowns, l', b, rfl⟩
  intro m' hm'
  rcases List.mem_append.mp hm' with hm' | hm'
  · exact hmemories m' hm'
  · exact List.mem_singleton.mp hm' ▸ hm

/-- An unknown access is added to both summaries alike. -/
theorem addUnknown_mirrors {d : Draft} {d' : Scope.Draft} (h : SameDraft s x d d')
    {id : UnknownEntryId} (hid : id.index < x.unknowns) (n : AliasNodeId) :
    Mirrors (SameDraft s x) (addUnknown n d id) (.ok (Scope.addUnknown n d' id)) := by
  obtain ⟨hmemories, hunknowns, l, b, rfl⟩ := h
  obtain ⟨u, hu, hsome, hinst⟩ := b.unknown hid
  rw [addUnknown, hu, ok_bind, Scope.addUnknown, hsome]
  refine .ok ⟨hmemories, ?_, _, b.count _ _, rfl⟩
  intro u' hu'
  rcases List.mem_append.mp hu' with hu' | hu'
  · exact hunknowns u' hu'
  · exact List.mem_singleton.mp hu' ▸ hinst

/-- Arena and ledger are as related as before, and both give the same result for a node. -/
def SameResult (s : Scope) (x : Extent) (p : Arena × NodeTrait) (q : Ledger × NodeTrait) : Prop :=
  Backs s x p.1 q.1 ∧ p.2 = q.2 ∧ NamesKnown s.function s.tree p.2

/-- The result for a node with several constituents is mirrored. -/
theorem mixedTrait_mirrors (b : Backs s x a l) (n : AliasNodeId) {entries : List EntryId}
    {unknowns : List UnknownEntryId} (hentries : ∀ id ∈ entries, id.index < x.entries)
    (hunknowns : ∀ id ∈ unknowns, id.index < x.unknowns) :
    Mirrors (SameResult s x) (mixedTrait s a n entries unknowns)
      (.ok (s.mixedTrait l n entries unknowns)) := by
  have hstart : SameDraft s x { arena := a } { ledger := l } :=
    ⟨List.forall_mem_nil _, List.forall_mem_nil _, l, b, rfl⟩
  -- The groups come first, then the unknown accesses; both runs keep the summaries together.
  refine (Mirrors.foldl (fun id hid d d' h => addMemory_mirrors h (hentries id hid) n) hstart).next
    fun d h => ?_
  refine (Mirrors.foldl (fun id hid d d' h => addUnknown_mirrors h (hunknowns id hid) n) h).next
    fun d h => ?_
  unfold Scope.mixedTrait
  dsimp only
  generalize unknowns.foldl (Scope.addUnknown n) (entries.foldl (s.addMemory n) { ledger := l })
    = d' at h
  obtain ⟨hmemories, hunknowns, l', b', rfl⟩ := h
  exact .ok ⟨b', rfl, hmemories, hunknowns⟩

/-- What the results for the nodes of a loop name is in range. -/
def TraitsKnown (f : Function) (t : AliasTree) (m : TraitMap) : Prop :=
  ∀ p ∈ m.toList, NamesKnown f t p.2

/-- Results in range stay so when one in range is put down. -/
theorem TraitsKnown.record {f : Function} {t : AliasTree} {m : TraitMap} (h : TraitsKnown f t m)
    {r : NodeTrait} (hr : NamesKnown f t r) : TraitsKnown f t (m.record r) := by
  intro p hp
  rcases OrderedMap.mem_toList_insert hp with rfl | hp
  · exact hr
  · exact h p hp

/-- Arena and ledger are as related as before, and the results so far are the same. -/
def SameTraits (s : Scope) (x : Extent) (p : Arena × TraitMap) (q : Ledger × TraitMap) : Prop :=
  Backs s x p.1 q.1 ∧ p.2 = q.2 ∧ TraitsKnown s.function s.tree p.2

/-- What is put down for a node with several constituents is mirrored. -/
theorem recordMixed_mirrors (b : Backs s x a l) {m : TraitMap}
    (hm : TraitsKnown s.function s.tree m) (n : AliasNodeId) {entries : List EntryId}
    {unknowns : List UnknownEntryId} (hentries : ∀ id ∈ entries, id.index < x.entries)
    (hunknowns : ∀ id ∈ unknowns, id.index < x.unknowns) :
    Mirrors (SameTraits s x)
      (mixedTrait s a n entries unknowns >>= fun p => return (p.1, m.record p.2))
      (.ok ((s.mixedTrait l n entries unknowns).1,
        m.record (s.mixedTrait l n entries unknowns).2)) := by
  refine (mixedTrait_mirrors b n hentries hunknowns).next ?_
  rintro ⟨a, t⟩ ⟨b, hsame, ht⟩
  rw [← hsame]
  exact .ok ⟨b, rfl, hm.record ht⟩

/-- Storing the result of a node is mirrored. -/
theorem storeResults_mirrors (b : Backs s x a l) {m : TraitMap}
    (hm : TraitsKnown s.function s.tree m) (n : AliasNodeId) {entries : List EntryId}
    {unknowns : List UnknownEntryId} (hentries : ∀ id ∈ entries, id.index < x.entries)
    (hunknowns : ∀ id ∈ unknowns, id.index < x.unknowns) :
    Mirrors (SameTraits s x) (storeResults s n entries unknowns a m)
      (.ok (s.storeResults n entries unknowns l m)) := by
  have hmixed := recordMixed_mirrors b hm n hentries hunknowns
  -- All lists but the empty ones and a single entry take the way of `mixedTrait`.
  match entries, unknowns with
  | [], [] => exact .ok ⟨b, rfl, hm⟩
  | [id], [] =>
    refine (memoryTrait_mirrors b (hentries id List.mem_cons_self) n).next ?_
    rintro ⟨a, t, explicit⟩ ⟨b, hsome, ht⟩
    unfold Scope.storeResults
    dsimp only
    generalize s.memoryTrait l n id = q at b hsome
    obtain ⟨l', result⟩ := q
    obtain rfl : result = some (t, explicit) := hsome
    refine .ok ⟨b, rfl, hm.record ⟨?_, List.forall_mem_nil _⟩⟩
    exact fun m' hm' => List.mem_singleton.mp hm' ▸ ht
  | [], _ :: _ => exact hmixed
  | [_], _ :: _ => exact hmixed
  | _ :: _ :: _, _ => exact hmixed

end Privatization.Guarded
