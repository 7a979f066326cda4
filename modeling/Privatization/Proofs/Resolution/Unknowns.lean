import Privatization.Proofs.Resolution.Passes

/-!
# Unknown accesses after the passes

The passes attribute each unknown access of the loop to the node it is found at
(`unknowns_resolve`). Before the propagation it waits in the list of that node, in the order the
accesses came, and nothing has been counted yet (`queued_resolved`).
-/

namespace Privatization

namespace Ledger

variable {l : Ledger} {t : AliasTree} {n : AliasNodeId}

/-- The unknown accesses wait at their nodes, and nothing was counted. -/
structure Queued (l : Ledger) : Prop where
  lists : ∀ n, (l.unknownsAt n).map l.unknown?
    = (l.unknowns.toList.filter fun x => x.node == n).map some
  statistics : l.statistics = {}

/-- An observation about memory leaves unknown accesses and counters alone. -/
theorem observe_eq (l : Ledger) (t : AliasTree) (em : EstimateId) (v : Trait) :
    (l.observe t em v).unknowns = l.unknowns ∧ (l.observe t em v).nodeUnknowns = l.nodeUnknowns
      ∧ (l.observe t em v).statistics = l.statistics := by
  unfold observe trackExplicit
  split <;> exact ⟨rfl, rfl, rfl⟩

/-- An observation leaves the queues in order. -/
theorem Queued.observe (q : l.Queued) (em : EstimateId) (v : Trait) : (l.observe t em v).Queued := by
  obtain ⟨hunknowns, hlists, hstatistics⟩ := l.observe_eq t em v
  refine ⟨fun n => ?_, hstatistics.trans q.statistics⟩
  rw [hunknowns, ← q.lists n]
  unfold unknownsAt unknown?
  rw [hlists, hunknowns]

/-- An unknown access that is tracked waits last at its node. -/
theorem Queued.addUnknown (q : l.Queued) (inst : InstId) (node : AliasNodeId) (v : Trait) :
    (l.addUnknown inst node v).1.Queued where
  lists n := by
    -- Those that waited before are found where they were.
    have hold : (l.unknownsAt n).map (l.addUnknown inst node v).1.unknown?
        = (l.unknownsAt n).map l.unknown? := by
      refine List.map_congr_left fun id hid => ?_
      have hmem : l.unknown? id ∈ (l.unknowns.toList.filter fun x => x.node == n).map some := by
        rw [← q.lists n]
        exact List.mem_map.mpr ⟨id, hid, rfl⟩
      obtain ⟨x, -, hx⟩ := List.mem_map.mp hmem
      have hlt : id.index < l.unknowns.size := (Array.getElem?_eq_some_iff.mp hx.symm).1
      show (l.unknowns.push _)[id.index]? = l.unknowns[id.index]?
      rw [Array.getElem?_push, if_neg (by omega)]
    have hlist : (l.addUnknown inst node v).1.unknownsAt n
        = ((l.nodeUnknowns.update node [] (· ++ [⟨l.unknowns.size⟩])).get? n).getD [] := rfl
    have hunknowns : (l.addUnknown inst node v).1.unknowns.toList
        = l.unknowns.toList ++ [⟨inst, node, v⟩] := Array.toList_push ..
    rw [hunknowns, List.filter_append, List.map_append, ← q.lists n, ← hold, hlist]
    by_cases hn : n = node
    · have hnew : (l.addUnknown inst node v).1.unknown? ⟨l.unknowns.size⟩
          = some ⟨inst, node, v⟩ := Array.getElem?_push_size
      rw [hn, OrderedMap.get?_update_self, Option.getD_some, List.map_append, List.map_singleton,
        hnew]
      simp [unknownsAt]
    · rw [OrderedMap.get?_update_of_ne _ _ _ hn]
      simp [unknownsAt, Ne.symm hn]
  statistics := q.statistics

end Ledger

namespace Scope

variable {s : Scope} {l l' : Ledger} {d : DependenceMap}

/-- After the passes the queues are in order, whether or not a pass failed. -/
theorem queued_resolved (s : Scope) (d : DependenceMap) : (s.resolved d).Queued := by
  refine resolved_invariant ⟨fun n => rfl, rfl⟩ (fun l em v q => q.observe em v) ?_
  exact fun l inst node _ q => q.addUnknown inst node _

/-- The queues are in order after passes that succeed. -/
theorem queued_resolve (h : s.resolve { dependences := d } = .ok l) : l.Queued := by
  rw [(resolve_eq_ok h).2.2.2]
  exact queued_resolved s d

/-- How an unknown access is tracked. -/
def unknownEntry? (s : Scope) (inst : InstId) : Option UnknownEntry :=
  (s.tree.findUnknown? inst).map fun node => ⟨inst, node, s.unknownTrait inst⟩

/-- A pass whose steps leave unknown accesses alone leaves them alone. -/
theorem unknowns_runSteps {α : Type} {step : Ledger → α → Except ClassifyError Ledger}
    (hstep : ∀ l a l', step l a = .ok l' → l'.unknowns = l.unknowns) (l : Ledger) (as : List α) :
    (runSteps step l as).1.unknowns = l.unknowns := by
  let P (l' : Ledger) : Prop := l'.unknowns = l.unknowns
  have hinit : P l := rfl
  exact runSteps_invariant hinit fun l₁ a l₂ h hl => (hstep l₁ a l₂ hl).trans h

/-- Resolving an explicit access tracks no unknown one. -/
theorem unknowns_resolveAccess {loc : MemoryLocation} (h : s.resolveAccess l loc = .ok l') :
    l'.unknowns = l.unknowns := by
  obtain ⟨em, -, rfl⟩ := resolveAccess_eq_ok h
  exact (l.observe_eq ..).1

/-- Resolving a pointer tracks no unknown access. -/
theorem unknowns_resolvePointer {loc : MemoryLocation} (h : s.resolvePointer l loc = .ok l') :
    l'.unknowns = l.unknowns := by
  rcases resolvePointer_eq_ok h with ⟨-, rfl⟩ | ⟨em, -, rfl⟩
  · rfl
  · split
    · exact (l.observe_eq ..).1
    · rfl

/-- Resolving an address tracks no unknown access. -/
theorem unknowns_resolveAddress {ptr : ValueId} (h : s.resolveAddress l ptr = .ok l') :
    l'.unknowns = l.unknowns := by
  obtain ⟨em, -, rfl⟩ := resolveAddress_eq_ok h
  split
  · exact (l.observe_eq ..).1
  · rfl

/-- Resolving an unknown access tracks it behind the others. -/
theorem unknowns_resolveUnknown {inst : InstId} (h : s.resolveUnknown l inst = .ok l') :
    ∃ x, s.unknownEntry? inst = some x ∧ l'.unknowns.toList = l.unknowns.toList ++ [x] := by
  obtain ⟨node, hnode, rfl⟩ := resolveUnknown_eq_ok h
  refine ⟨⟨inst, node, s.unknownTrait inst⟩, ?_, Array.toList_push ..⟩
  unfold unknownEntry?
  rw [hnode]
  rfl

/-- Where the passes succeed, every unknown access of the loop is tracked. -/
theorem unknowns_resolve (h : s.resolve { dependences := d } = .ok l) :
    l.unknowns.toList = s.defUse.unknowns.filterMap s.unknownEntry? := by
  obtain ⟨haccesses, -, -, rfl⟩ := resolve_eq_ok h
  unfold resolveAddresses resolvePointers
  rw [unknowns_runSteps fun _ _ _ => unknowns_resolveAddress,
    unknowns_runSteps fun _ _ _ => unknowns_resolvePointer]
  -- Of the first pass, only the part over unknown accesses tracks any.
  unfold resolveAccesses at haccesses ⊢
  split at haccesses
  next l₁ hrun =>
    have hnone : (runSteps s.resolveAccess { dependences := d } s.defUse.explicit).1.unknowns
        = #[] := unknowns_runSteps (fun _ _ _ => unknowns_resolveAccess) _ _
    rw [hrun] at hnone
    let P (done : List InstId) (l : Ledger) : Prop :=
      l.unknowns.toList = done.filterMap s.unknownEntry?
    have hinit : P [] l₁ := congrArg Array.toList hnone
    refine runSteps_outcome hinit (fun done inst l l' _ hl hstep => ?_) haccesses
    obtain ⟨x, hx, hl'⟩ := unknowns_resolveUnknown hstep
    show _ = (done ++ [inst]).filterMap s.unknownEntry?
    rw [List.filterMap_append, List.filterMap_cons_some hx, ← hl]
    exact hl'
  next hfailed => exact (hfailed _ (Prod.ext rfl haccesses)).elim

end Scope

end Privatization
