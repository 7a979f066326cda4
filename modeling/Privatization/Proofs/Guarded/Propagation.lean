import Privatization.Classification.Coverage
import Privatization.Classification.Propagation
import Privatization.Proofs.Guarded.Summary

/-!
# Guarded propagation

The visit of the alias tree on an arena, children first, and the nodes that are forced to a
dependence afterwards. The entries of a node are compared in place: one position after the other,
with removals in between. Every step mirrors the one on the ledger and leaves the extent of the arena
alone, so the numbers that nodes hand on stay in range until the root is finished.
-/

namespace Privatization.Guarded

/-- A list without the item at a position. -/
def removeAt {α : Type} (as : List α) (i : Nat) : Guarded (List α) :=
  if i < as.length then return as.eraseIdx i else throw .outOfRange

section Nodes

variable (s : Scope)

/-! ## Collecting from the children -/

/-- Takes the entry of a child over: it is folded into the entry for the surrounding memory, moved
there, or kept as it is. -/
def collectEntry (n : AliasNodeId) (acc : Arena × List EntryId) (id : EntryId) :
    Guarded (Arena × List EntryId) := do
  let (a, kept) := acc
  let id ← resolve a.cells id
  match ← estimateParent s.tree (← a.entry id).memory with
  | none => return (a, kept ++ [id])
  | some parent =>
    if (← home s.tree parent) == n then
      match ← a.explicitEntry? parent with
      | some target => return (← a.fold id target, kept)
      | none => return (← a.setMemory id parent, kept ++ [id])
    else return (a, kept ++ [id])

/-- Takes over all that a child lists. -/
def collectChild (n : AliasNodeId) (acc : Arena × List EntryId × List UnknownEntryId)
    (child : AliasNodeId) : Guarded (Arena × List EntryId × List UnknownEntryId) := do
  let (a, entries, unknowns) := acc
  let passed := a.unknownsAt child
  let (a, entries) ← (a.entriesAt child).foldlM (collectEntry s n) (a.clearNode child, entries)
  return (a, entries, unknowns ++ passed)

/-! ## Folding duplicates -/

/-- Moves an entry to the outermost memory around its own that is still of the node. -/
def generalize (n : AliasNodeId) (a : Arena) (id : EntryId) : Guarded Arena := do
  let em := (← a.entry id).memory
  if (← home s.tree em) == n then a.setMemory id (← outermostIn s.tree n em) else return a

/-- Compares an entry for a memory with the entry at a position of those kept, and goes on to the
next position, or stays where the entry there was removed. -/
def absorbTurn (id : EntryId) (em : EstimateId) (state : Arena × List EntryId × Nat) :
    Guarded ((Arena × List EntryId × Nat) ⊕ (Arena × List EntryId × Bool)) :=
  let (a, kept, i) := state
  if i < kept.length then do
    let other ← found kept[i]?
    let otherEm := (← a.entry other).memory
    if ← isEstimateAncestor s.tree otherEm em then return .inr (← a.fold id other, kept, true)
    else if ← isEstimateAncestor s.tree em otherEm then
      return .inl (← a.fold other id, ← removeAt kept i, i)
    else return .inl (a, kept, i + 1)
  else return .inr (a, kept, false)

/-- Compares an entry for a memory with all entries kept. -/
def absorb (id : EntryId) (em : EstimateId) (a : Arena) (kept : List EntryId) :
    Guarded (Arena × List EntryId × Bool) :=
  loop (absorbTurn s id em) (kept.length + 1) (a, kept, 0)

/-- Keeps an entry unless its group is kept or absorbed. -/
def keep (acc : Arena × List EntryId) (id : EntryId) : Guarded (Arena × List EntryId) := do
  let (a, kept) := acc
  let id ← resolve a.cells id
  if id ∈ kept then return (a, kept)
  else
    let (a, kept, absorbed) ← absorb s id (← a.entry id).memory a kept
    return (a, if absorbed then kept else kept ++ [id])

/-- Folds entries whose memory lies inside that of others. -/
def foldDuplicates (n : AliasNodeId) (a : Arena) (entries : List EntryId) :
    Guarded (Arena × List EntryId) := do
  let a ← entries.foldlM (generalize s n) a
  entries.foldlM (keep s) (a, [])

/-! ## The whole tree -/

/-- Finishes a node whose children are finished. -/
def finishNode (acc : Arena × TraitMap) (n : AliasNodeId) : Guarded (Arena × TraitMap) := do
  let (a, m) := acc
  let own := (a.clearNode n, a.entriesAt n, a.unknownsAt n)
  let (a, entries, unknowns) ← (← nodeChildren s.tree n).foldlM (collectChild s n) own
  let (a, entries) ← foldDuplicates s n a entries
  let (a, m) ← storeResults s n entries unknowns a m
  return (a.setNode n entries unknowns, m)

/-- Finishes every node, children first. -/
def propagate (a : Arena) (m : TraitMap) : Guarded (Arena × TraitMap) := do
  (← postOrder s.tree).foldlM (finishNode s) (a, m)

end Nodes

section Coverage

variable (t : AliasTree)

/-- Whether the accessed memory of a node covers all its outermost memory. -/
def isSpanned (accessed : List EstimateId) (n : AliasNodeId) : Guarded Bool := do
  let roots ← nodeRoots t n
  let pieces ← accessed.filterM fun em => return (← home t em) == n
  if roots.isEmpty then return false else roots.allM fun root => covers t root pieces

/-- The nodes with a result that are covered. -/
def coveredNodes (a : Arena) (m : TraitMap) : Guarded (List AliasNodeId) := do
  let accessed ← a.explicitlyAccessed
  let reported ← t.nodeIds.filterM fun n =>
    return (← node t n).kind == .estimate && m.contains n
  reported.filterM (isSpanned t accessed)

/-- Reports a node and everything below it as a full dependence. -/
def forceBelow (m : TraitMap) (n : AliasNodeId) : Guarded TraitMap :=
  return (← descendants t n).foldl TraitMap.force m

/-- Forces what lies strictly below covered nodes. -/
def forceCovered (a : Arena) (m : TraitMap) : Guarded TraitMap := do
  (← coveredNodes t a m).foldlM (fun m n => do (← nodeChildren t n).foldlM (forceBelow t) m) m

end Coverage

/-! ## Collecting mirrors that of the engine -/

variable {s : Scope} {x : Extent} {a : Arena} {l : Ledger} {id : EntryId} {em : EstimateId}

/-- Arena and ledger are as related as before, and the entries kept are the same and in range. -/
def SameKept (s : Scope) (x : Extent) (p : Arena × List EntryId) (q : Ledger × List EntryId) :
    Prop :=
  Backs s x p.1 q.1 ∧ p.2 = q.2 ∧ ∀ id ∈ p.2, id.index < x.entries

/-- One more item keeps what is known of all. -/
theorem forall_mem_concat {α : Type} {P : α → Prop} {as : List α} {a : α} (has : ∀ b ∈ as, P b)
    (ha : P a) : ∀ b ∈ as ++ [a], P b :=
  List.forall_mem_append.mpr ⟨has, List.forall_mem_singleton.mpr ha⟩

/-- Taking an entry over is mirrored. The number handed on is that of the leader, which is in range
as the entry is. -/
theorem collectEntry_mirrors {p : Arena × List EntryId} {q : Ledger × List EntryId}
    (h : SameKept s x p q) (hid : id.index < x.entries) (n : AliasNodeId) :
    Mirrors (SameKept s x) (collectEntry s n p id) (.ok (s.collectEntry n q id)) := by
  obtain ⟨a, kept⟩ := p
  obtain ⟨l, kept'⟩ := q
  obtain ⟨b, hkept, hrange⟩ := h
  obtain rfl : kept = kept' := hkept
  have hid := b.leader_lt hid
  obtain ⟨e, he, -, hmemory, hem⟩ := b.entry hid
  unfold collectEntry Scope.collectEntry
  dsimp only
  rw [b.resolve ‹_›, ok_bind, he, ok_bind, estimateParent_eq hem, ok_bind, hmemory,
    Option.bind_some]
  cases hparent : s.tree.estimateParent? e.memory with
  | none => exact .ok ⟨b, rfl, forall_mem_concat hrange hid⟩
  | some parent =>
    have hp := parent_lt hparent
    dsimp only
    rw [home_eq hp, ok_bind]
    cases s.tree.home parent == n with
    | false => exact .ok ⟨b, rfl, forall_mem_concat hrange hid⟩
    | true =>
      show Mirrors _ (a.explicitEntry? parent >>= _) _
      rw [b.explicitEntry?, ok_bind]
      -- In the node of the parent, its group takes the entry in if it has one.
      cases htarget : l.explicitEntry? parent with
      | some target =>
        refine (b.fold hid (b.explicitEntry?_lt htarget)).next fun a b => ?_
        exact .ok ⟨b, rfl, hrange⟩
      | none =>
        refine (b.setMemory hid hp).next fun a b => ?_
        exact .ok ⟨b, rfl, forall_mem_concat hrange hid⟩

/-- Arena and ledger are as related as before, and both lists of a node are the same and in
range. -/
def SameLists (s : Scope) (x : Extent) (p : Arena × List EntryId × List UnknownEntryId)
    (q : Ledger × List EntryId × List UnknownEntryId) : Prop :=
  Backs s x p.1 q.1 ∧ p.2 = q.2 ∧ (∀ id ∈ p.2.1, id.index < x.entries)
    ∧ ∀ id ∈ p.2.2, id.index < x.unknowns

/-- Taking over a child is mirrored, for its lists are in range. -/
theorem collectChild_mirrors {p : Arena × List EntryId × List UnknownEntryId}
    {q : Ledger × List EntryId × List UnknownEntryId} (h : SameLists s x p q)
    (n child : AliasNodeId) :
    Mirrors (SameLists s x) (collectChild s n p child) (.ok (s.collectChild n q child)) := by
  obtain ⟨a, entries, unknowns⟩ := p
  obtain ⟨l, lists⟩ := q
  obtain ⟨b, hlists, hentries, hunknowns⟩ := h
  obtain rfl : (entries, unknowns) = lists := hlists
  unfold collectChild Scope.collectChild
  dsimp only
  rw [b.entriesAt, b.unknownsAt]
  have hstart : SameKept s x (a.clearNode child, entries) (l.clearNode child, entries) :=
    ⟨b.clearNode child, rfl, hentries⟩
  refine (Mirrors.foldl (fun id hid p q h => collectEntry_mirrors h (b.entriesAt_lt hid) n)
    hstart).next ?_
  rintro ⟨a, entries'⟩ ⟨b', hsame, hrange⟩
  refine .ok ⟨b', ?_, hrange, List.forall_mem_append.mpr ⟨hunknowns, fun id hid => ?_⟩⟩
  · exact congrArg (Prod.mk · _) hsame
  · exact b.unknownsAt_lt hid

/-! ## Folding duplicates mirrors that of the engine -/

/-- What stands behind the items done so far can be removed. -/
theorem removeAt_eq {α : Type} (done rest : List α) (a : α) :
    removeAt (done ++ a :: rest) done.length = .ok (done ++ rest) := by
  have hlt : done.length < (done ++ a :: rest).length := by simp
  rw [removeAt, if_pos hlt, List.eraseIdx_append_of_length_le (Nat.le_refl _), Nat.sub_self]
  rfl

/-- Moving an entry outwards is mirrored. -/
theorem generalize_mirrors (b : Backs s x a l) (hid : id.index < x.entries) (n : AliasNodeId) :
    Mirrors (Backs s x) (generalize s n a id) (.ok (s.generalize n l id)) := by
  obtain ⟨e, he, -, hmemory, hem⟩ := b.entry hid
  rw [generalize, he, ok_bind, Scope.generalize, hmemory]
  dsimp only
  rw [home_eq hem, ok_bind]
  cases hhome : s.tree.home e.memory == n with
  | false => exact .ok b
  | true =>
    show Mirrors _ (outermostIn s.tree n e.memory >>= _) _
    rw [outermostIn_eq n hem, ok_bind]
    exact b.setMemory hid (AliasTree.outermostIn_lt (beq_iff_eq.mp hhome) hem)

/-- What the comparison at a position will still come to: the entries before it stay, and the
others are compared as the engine does. -/
def Absorbing (s : Scope) (x : Extent) (id : EntryId) (em : EstimateId) :
    Arena × List EntryId × Nat → Ledger × List EntryId × Bool → Prop
  | (a, kept, i), r => ∃ l done rest, Backs s x a l ∧ (∀ id ∈ kept, id.index < x.entries)
      ∧ kept = done ++ rest ∧ i = done.length
      ∧ r = ((s.absorb id em l rest).1, done ++ (s.absorb id em l rest).2.1,
        (s.absorb id em l rest).2.2)

/-- Both comparisons keep the same entries, and absorb the new one or not. -/
def SameAbsorbed (s : Scope) (x : Extent) (p : Arena × List EntryId × Bool)
    (q : Ledger × List EntryId × Bool) : Prop :=
  Backs s x p.1 q.1 ∧ p.2 = q.2 ∧ ∀ id ∈ p.2.1, id.index < x.entries

/-- One turn of the comparison either ends it with what the engine keeps, or leaves fewer entries to
compare. In the arena the entries kept lie before the position and the others behind it. -/
theorem absorbTurn_step (hid : id.index < x.entries) (hem : em.index < s.tree.estimates.size)
    (state : Arena × List EntryId × Nat) (r : Ledger × List EntryId × Bool)
    (h : Absorbing s x id em state r) :
    (∃ p, absorbTurn s id em state = .ok (.inr p) ∧ SameAbsorbed s x p r)
      ∨ ∃ state', absorbTurn s id em state = .ok (.inl state') ∧ Absorbing s x id em state' r
        ∧ state'.2.1.length - state'.2.2 < state.2.1.length - state.2.2 := by
  obtain ⟨a, kept, i⟩ := state
  obtain ⟨l, done, rest, b, hrange, rfl, rfl, rfl⟩ := h
  cases rest with
  | nil =>
    refine .inl ⟨(a, done ++ [], false), ?_, b, rfl, hrange⟩
    exact if_neg (by simp)
  | cons other rest =>
    have hlt : done.length < (done ++ other :: rest).length := by simp
    have hget : (done ++ other :: rest)[done.length]? = some other := by simp
    have hother : other.index < x.entries := hrange other (by simp)
    obtain ⟨e, he, -, hmemory, hotherEm⟩ := b.entry hother
    -- The turn with its look-ups done; what is left are the two tests of the engine.
    have hturn : absorbTurn s id em (a, done ++ other :: rest, done.length) = (do
        if s.tree.isEstimateAncestor e.memory em then
          return .inr (← a.fold id other, done ++ other :: rest, true)
        else if s.tree.isEstimateAncestor em e.memory then
          return .inl (← a.fold other id, done ++ rest, done.length)
        else return .inl (a, done ++ other :: rest, done.length + 1)) := by
      unfold absorbTurn
      dsimp only
      rw [if_pos hlt, hget, found_some, ok_bind, he, ok_bind, isEstimateAncestor_eq _ hem, ok_bind,
        isEstimateAncestor_eq _ hotherEm, ok_bind, removeAt_eq]
      rfl
    rw [hturn, Scope.absorb, hmemory]
    dsimp only
    by_cases hout : s.tree.isEstimateAncestor e.memory em = true
    · obtain ⟨a', ha', b'⟩ := (b.fold hid hother).exists_ok
      rw [if_pos hout, if_pos hout, ha']
      exact .inl ⟨_, rfl, b', rfl, hrange⟩
    · rw [if_neg hout, if_neg hout]
      by_cases hin : s.tree.isEstimateAncestor em e.memory = true
      · obtain ⟨a', ha', b'⟩ := (b.fold hother hid).exists_ok
        rw [if_pos hin, if_pos hin, ha']
        -- The position stays, and the next entry moves up to it.
        refine .inr ⟨_, rfl, ⟨_, done, rest, b', fun id hid => hrange id ?_, rfl, rfl, rfl⟩, ?_⟩
        · rcases List.mem_append.mp hid with hid | hid
          · exact List.mem_append_left _ hid
          · exact List.mem_append_right _ (List.mem_cons_of_mem _ hid)
        · simp
      · rw [if_neg hin, if_neg hin]
        refine .inr ⟨_, rfl, ⟨l, done ++ [other], rest, b, hrange, ?_, ?_, ?_⟩, ?_⟩
        · -- The entry stays, so it moves to those that were done.
          exact List.append_cons ..
        · simp
        · simp
        · simp only [List.length_append, List.length_cons]
          omega

/-- The whole comparison ends and keeps what the engine keeps. -/
theorem absorb_mirrors (b : Backs s x a l) (hid : id.index < x.entries)
    (hem : em.index < s.tree.estimates.size) {kept : List EntryId}
    (hkept : ∀ id ∈ kept, id.index < x.entries) :
    Mirrors (SameAbsorbed s x) (absorb s id em a kept) (.ok (s.absorb id em l kept)) :=
  loop_mirrors (Absorbing s x id em) (fun state => state.2.1.length - state.2.2)
    (absorbTurn_step hid hem) ⟨l, [], kept, b, hkept, rfl, rfl, rfl⟩ (Nat.lt_succ_self _)

/-- Keeping an entry is mirrored. -/
theorem keep_mirrors {p : Arena × List EntryId} {q : Ledger × List EntryId}
    (h : SameKept s x p q) (hid : id.index < x.entries) :
    Mirrors (SameKept s x) (keep s p id) (.ok (s.keep q id)) := by
  obtain ⟨a, kept⟩ := p
  obtain ⟨l, kept'⟩ := q
  obtain ⟨b, hkept, hrange⟩ := h
  obtain rfl : kept = kept' := hkept
  have hleader := b.leader_lt hid
  obtain ⟨e, he, -, hmemory, hem⟩ := b.entry hleader
  unfold keep Scope.keep
  dsimp only
  rw [b.resolve hid, ok_bind, hmemory]
  by_cases hmem : l.leader id ∈ kept
  · rw [if_pos hmem, if_pos hmem]
    exact .ok ⟨b, rfl, hrange⟩
  · rw [if_neg hmem, if_neg hmem, he, ok_bind]
    refine (absorb_mirrors b hleader hem hrange).next ?_
    rintro ⟨a, kept', absorbed⟩ ⟨b, hsame, hrange⟩
    dsimp only
    generalize s.absorb (l.leader id) e.memory l kept = r at b hsame
    obtain ⟨l', rest⟩ := r
    obtain rfl : (kept', absorbed) = rest := hsame
    cases absorbed with
    | true => exact .ok ⟨b, rfl, hrange⟩
    | false => exact .ok ⟨b, rfl, forall_mem_concat hrange hleader⟩

/-- Folding duplicates is mirrored. -/
theorem foldDuplicates_mirrors (b : Backs s x a l) (n : AliasNodeId) {entries : List EntryId}
    (hentries : ∀ id ∈ entries, id.index < x.entries) :
    Mirrors (SameKept s x) (foldDuplicates s n a entries)
      (.ok (s.foldDuplicates n l entries)) := by
  refine (Mirrors.foldl (fun id hid a l b => generalize_mirrors b (hentries id hid) n) b).next
    fun a b => ?_
  have hstart : SameKept s x (a, []) (entries.foldl (s.generalize n) l, []) :=
    ⟨b, rfl, List.forall_mem_nil _⟩
  refine Mirrors.foldl (fun id hid p q h => ?_) hstart
  exact keep_mirrors h (hentries id hid)

/-! ## The visit mirrors that of the engine -/

/-- Finishing a node is mirrored. -/
theorem finishNode_mirrors {p : Arena × TraitMap} {q : Ledger × TraitMap}
    (h : SameTraits s x p q) {n : AliasNodeId} (hn : n.index < s.tree.nodes.size) :
    Mirrors (SameTraits s x) (finishNode s p n) (.ok (s.finishNode q n)) := by
  obtain ⟨a, m⟩ := p
  obtain ⟨l, m'⟩ := q
  obtain ⟨b, hm, hknown⟩ := h
  obtain rfl : m = m' := hm
  have hown : SameLists s x (a.clearNode n, a.entriesAt n, a.unknownsAt n)
      (l.clearNode n, l.entriesAt n, l.unknownsAt n) := by
    rw [b.entriesAt, b.unknownsAt]
    exact ⟨b.clearNode n, rfl, fun id hid => b.entriesAt_lt hid, fun id hid => b.unknownsAt_lt hid⟩
  unfold finishNode Scope.finishNode
  dsimp only
  rw [nodeChildren_eq hn, ok_bind]
  -- Collecting, folding and storing are mirrored in turn. After each, only what it gave is kept.
  refine (Mirrors.foldl (fun c _ p q h => collectChild_mirrors h n c) hown).next ?_
  rintro ⟨a, entries, unknowns⟩ ⟨b, hlists, hentries, hunknowns⟩
  generalize (s.tree.nodeChildren n).foldl (s.collectChild n) _ = q at b hlists
  obtain ⟨l, lists⟩ := q
  obtain rfl : (entries, unknowns) = lists := hlists
  refine (foldDuplicates_mirrors b n hentries).next ?_
  rintro ⟨a, kept⟩ ⟨b, hkept, hrange⟩
  dsimp only
  generalize s.foldDuplicates n l entries = q at b hkept
  obtain ⟨l, kept'⟩ := q
  obtain rfl : kept = kept' := hkept
  refine (storeResults_mirrors b hknown n hrange hunknowns).next ?_
  rintro ⟨a, m⟩ ⟨b, hm, hknown⟩
  dsimp only
  generalize s.storeResults n kept unknowns l _ = q at b hm
  obtain ⟨l, m'⟩ := q
  obtain rfl : m = m' := hm
  exact .ok ⟨b.setNode n hrange hunknowns, rfl, hknown⟩

/-- The visit of a well-formed tree is mirrored. -/
theorem propagate_mirrors (w : s.tree.WellFormed) (b : Backs s x a l) {m : TraitMap}
    (hm : TraitsKnown s.function s.tree m) :
    Mirrors (SameTraits s x) (propagate s a m) (.ok (s.propagate l m)) := by
  rw [propagate, postOrder_eq w, ok_bind]
  have hstart : SameTraits s x (a, m) (l, m) := ⟨b, rfl, hm⟩
  refine Mirrors.foldl (fun n hn p q h => ?_) hstart
  exact finishNode_mirrors h (w.mem_postOrder.mp hn)

/-! ## Coverage -/

/-- Coverage is measured on memory of the node, which is in range. -/
theorem isSpanned_eq {t : AliasTree} {accessed : List EstimateId} {n : AliasNodeId}
    (haccessed : ∀ em ∈ accessed, em.index < t.estimates.size) (hn : n.index < t.nodes.size) :
    isSpanned t accessed n = .ok (t.isSpanned accessed n) := by
  have hpieces : (accessed.filterM fun em => return (← home t em) == n)
      = .ok (accessed.filter fun em => t.home em == n) := by
    refine filterM_eq fun em hem => ?_
    rw [home_eq (haccessed em hem)]
    rfl
  rw [isSpanned, nodeRoots_eq hn, ok_bind, hpieces, ok_bind, AliasTree.isSpanned]
  cases (t.nodeRoots n).isEmpty with
  | true => rfl
  | false =>
    refine (allM_eq fun root hroot => ?_).trans (congrArg Except.ok (Bool.true_and _).symm)
    exact covers_eq (AliasTree.mem_nodeRoots_lt hroot) fun p hp => haccessed p (List.mem_filter.mp hp).1

/-- The covered nodes are those of the engine. -/
theorem coveredNodes_eq (b : Backs s x a l) (m : TraitMap) :
    coveredNodes s.tree a m = .ok (l.coveredNodes s.tree m) := by
  have hreported : (s.tree.nodeIds.filterM fun n => do
      return (← node s.tree n).kind == AliasNodeKind.estimate && m.contains n)
      = .ok (s.tree.nodeIds.filter fun n =>
        (s.tree.node? n).any (·.kind == AliasNodeKind.estimate) && m.contains n) := by
    refine filterM_eq fun n hn => ?_
    obtain ⟨y, hy, hok⟩ := node_eq (AliasTree.mem_nodeIds_lt hn)
    rw [hok, hy]
    rfl
  rw [coveredNodes, b.explicitlyAccessed, ok_bind, hreported, ok_bind,
    filterM_eq (q := s.tree.isSpanned l.explicitlyAccessed), List.filter_filter,
    Ledger.coveredNodes]
  · exact congrArg Except.ok (List.filter_congr fun _ _ => Bool.and_comm ..)
  · intro n hn
    exact isSpanned_eq (fun em hem => b.mem_explicitlyAccessed_lt hem)
      (AliasTree.mem_nodeIds_lt (List.mem_filter.mp hn).1)

/-- Forcing a result changes no name in it. -/
theorem TraitsKnown.force {f : Function} {t : AliasTree} {m : TraitMap} (h : TraitsKnown f t m)
    (n : AliasNodeId) : TraitsKnown f t (m.force n) := by
  unfold TraitMap.force OrderedMap.modify
  split
  next r hr =>
    intro p hp
    rcases OrderedMap.mem_toList_insert hp with rfl | hp
    · obtain ⟨hmemories, hunknowns⟩ := h (n, r) (OrderedMap.mem_toList_iff.mpr hr)
      dsimp only
      split
      · exact ⟨hmemories, hunknowns⟩
      · exact ⟨List.forall_mem_map.mpr hmemories, List.forall_mem_map.mpr hunknowns⟩
    · exact h p hp
  next => exact h

/-- The results are the same, and what they name is in range. -/
def SameForced (s : Scope) (m m' : TraitMap) : Prop :=
  m = m' ∧ TraitsKnown s.function s.tree m

/-- Forcing what lies below a node is mirrored. -/
theorem forceBelow_mirrors {m m' : TraitMap} (h : SameForced s m m') {n : AliasNodeId}
    (hn : n.index < s.tree.nodes.size) :
    Mirrors (SameForced s) (forceBelow s.tree m n)
      (.ok ((s.tree.descendants n).foldl TraitMap.force m')) := by
  obtain ⟨rfl, hknown⟩ := h
  rw [forceBelow, descendants_eq hn, ok_bind]
  refine .ok ⟨rfl, ?_⟩
  exact List.foldlRecOn _ _ hknown fun m h n _ => h.force n

/-- Forcing below all covered nodes is mirrored. -/
theorem forceCovered_mirrors (b : Backs s x a l) {m : TraitMap}
    (hm : TraitsKnown s.function s.tree m) :
    Mirrors (SameForced s) (forceCovered s.tree a m) (.ok (l.forceCovered s.tree m)) := by
  have hstart : SameForced s m m := ⟨rfl, hm⟩
  rw [forceCovered, coveredNodes_eq b, ok_bind, Ledger.forceCovered]
  refine Mirrors.foldl (fun n hn m m' h => ?_) hstart
  have hn : n.index < s.tree.nodes.size := AliasTree.mem_nodeIds_lt (List.mem_filter.mp hn).1
  rw [nodeChildren_eq hn, ok_bind, List.foldl_flatMap]
  refine Mirrors.foldl (fun c hc m m' h => ?_) h
  exact forceBelow_mirrors h (AliasTree.mem_nodeChildren_lt hc)

end Privatization.Guarded
