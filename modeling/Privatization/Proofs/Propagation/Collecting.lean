import Privatization.Classification.Propagation
import Privatization.Proofs.Alias.Lift
import Privatization.Proofs.Ledger.Lists

/-!
# Collecting from the children

What a node takes over from its children. Every entry of a child enters the node: its memory becomes
its parent if that lives in the node, and then merges with the entry the node has for the parent, if
any. On the account of the ledger this is one step of `enter` for all memory strictly below the node
(`Collecting.run`).

The nested loop over the children and their entries is one loop over all entries of the children
(`foldl_collectChild`), since taking a child's list away does not touch entries.
-/

namespace Privatization.Scope

open Ledger (relist)

variable {s : Scope} {n : AliasNodeId} {l : Ledger} {kept queue : List EntryId} {id : EntryId}
  {m p e₁ : EstimateId} {place : EstimateId → EstimateId} {said : EstimateId → Trait}
  {P : EstimateId → Prop}

/-! ## One entry -/

/-- An entry whose memory has no parent in the node is kept as it is. -/
theorem collectEntry_of_outside (hlead : l.leader id = id) (hm : l.memory? id = some m)
    (h : ∀ p, s.tree.estimateParent? m = some p → s.tree.home p ≠ n) :
    s.collectEntry n (l, kept) id = (l, kept ++ [id]) := by
  unfold collectEntry
  simp only [hlead, hm, Option.bind_some]
  cases hp : s.tree.estimateParent? m with
  | none => rfl
  | some p => exact if_neg fun hb => h p hp (beq_iff_eq.mp hb)

/-- If the node has an entry for the parent, the entry is folded into that. -/
theorem collectEntry_of_known {target : EntryId} (hlead : l.leader id = id)
    (hm : l.memory? id = some m) (hp : s.tree.estimateParent? m = some p)
    (hn : s.tree.home p = n) (htarget : l.explicitEntry? p = some target) :
    s.collectEntry n (l, kept) id = (l.fold id target, kept) := by
  unfold collectEntry
  simp only [hlead, hm, Option.bind_some, hp, hn, beq_self_eq_true, if_true, htarget]

/-- Otherwise it comes to stand for the parent. -/
theorem collectEntry_of_unknown (hlead : l.leader id = id) (hm : l.memory? id = some m)
    (hp : s.tree.estimateParent? m = some p) (hn : s.tree.home p = n)
    (htarget : l.explicitEntry? p = none) :
    s.collectEntry n (l, kept) id = (l.setMemory id p, kept ++ [id]) := by
  unfold collectEntry
  simp only [hlead, hm, Option.bind_some, hp, hn, beq_self_eq_true, if_true, htarget]

/-- The state in the middle of collecting: `kept` are the groups of `n` so far, those of its own
memory among them, and `queue` those that still have to enter from its children. -/
structure Collecting (s : Scope) (n : AliasNodeId) (l : Ledger) (kept queue : List EntryId)
    (place : EstimateId → EstimateId) (said : EstimateId → Trait) (P : EstimateId → Prop) :
    Prop where
  accounts : l.Accounts s.tree place said
  gathers : l.Gathers (kept ++ queue) P
  own : ∀ (e : EstimateId) (j : EntryId), l.explicitEntry? e = some j → s.tree.home e = n →
    j ∈ kept ∧ place e = e
  below : ∀ (e : EstimateId) (j : EntryId), j ∈ queue → l.explicitEntry? e = some j →
    ∃ c, s.tree.nodeParent? c = some n ∧ s.tree.isNodeAncestor c (s.tree.home (place e)) = true

namespace Collecting

/-- The entry to take over next is no group of the node yet. -/
theorem not_mem (h : Collecting s n l kept (id :: queue) place said P) :
    id ∉ kept ∧ id ∉ queue ∧ ∀ j ∈ kept, j ∉ queue := by
  have hnodup := h.gathers.nodup
  rw [List.nodup_append, List.nodup_cons] at hnodup
  obtain ⟨-, ⟨hqueue, -⟩, hapart⟩ := hnodup
  exact ⟨fun hid => hapart id hid id List.mem_cons_self rfl, hqueue,
    fun j hj hjq => hapart j hj j (List.mem_cons_of_mem id hjq) rfl⟩

/-- Entering keeps the memory of a group around the places of its members. -/
theorem enter_around (w : s.tree.WellFormed)
    (h : Collecting s n l kept (id :: queue) place said P) (hm : l.memory? id = some m)
    {e : EstimateId} (he : l.explicitEntry? e = some id) :
    s.tree.isEstimateAncestor (s.tree.enter n m) (s.tree.enter n (place e)) = true := by
  obtain ⟨e₀, he₀, hm₀, hanc⟩ := h.accounts.stands e id he
  obtain rfl : place e₀ = m := Option.some.inj (hm₀.symm.trans hm)
  obtain ⟨c, hc, hce⟩ := h.below e₀ id List.mem_cons_self he₀
  exact w.enter_mono hc hanc hce

/-- The own memory and the rest of the queue are as before, because work is done on `kept` and `id`
alone and only members of `id` move. -/
theorem next {l' : Ledger} {kept' : List EntryId} {place' : EstimateId → EstimateId}
    (h : Collecting s n l kept (id :: queue) place said P)
    (ha : l'.Accounts s.tree place' said) (hg : l'.Gathers (kept' ++ queue) P)
    (hw : Ledger.Within (kept ++ [id]) l l') (hsub : ∀ j ∈ kept, j ∈ kept')
    (hsame : ∀ e j, l.explicitEntry? e = some j → j ≠ id →
      l'.explicitEntry? e = some j ∧ place' e = place e) :
    Collecting s n l' kept' queue place' said P := by
  obtain ⟨hkept, hqueue, hapart⟩ := h.not_mem
  refine ⟨ha, hg, fun e j he hn => ?_, fun e j hj he => ?_⟩
  · have hex : e ∈ l.explicit.keys := by
      rw [← hw.explicit]
      exact Ledger.mem_explicit_keys.mpr ⟨j, he⟩
    obtain ⟨i, hi⟩ := Ledger.mem_explicit_keys.mp hex
    obtain ⟨hik, hplace⟩ := h.own e i hi hn
    obtain ⟨hi', hmoved⟩ := hsame e i hi fun heq => hkept (heq ▸ hik)
    obtain rfl : i = j := Option.some.inj (hi'.symm.trans he)
    exact ⟨hsub i hik, hmoved.trans hplace⟩
  · have hne : j ≠ id := fun heq => hqueue (heq ▸ hj)
    have hout : j ∉ kept ++ [id] := by
      rw [List.mem_append, List.mem_singleton, not_or]
      exact ⟨fun hjk => hapart j hjk hj, hne⟩
    have he := (hw.explicitEntry?_iff hout).mp he
    obtain ⟨d, hd, hde⟩ := h.below e j (List.mem_cons_of_mem id hj) he
    exact ⟨d, hd, by rwa [(hsame e j he hne).2]⟩

/-- The node has an entry for the parent, which stands around the parent: the entry is folded in. -/
theorem fold_parent (w : s.tree.WellFormed)
    (h : Collecting s n l kept (id :: queue) place said P) (hm : l.memory? id = some m)
    (hn : s.tree.home p = n) (henter : s.tree.enter n m = p) (he₁ : l.explicitEntry? e₁ = some id)
    {target : EntryId} (htarget : l.explicitEntry? p = some target) :
    Collecting s n (l.fold id target) kept queue (l.moved id (s.tree.enter n) place) said P
      ∧ Ledger.Within (kept ++ [id]) l (l.fold id target) := by
  obtain ⟨hkept, -, -⟩ := h.not_mem
  obtain ⟨htk, hplace⟩ := h.own p target htarget hn
  have hne : id ≠ target := fun heq => hkept (heq ▸ htk)
  obtain ⟨e₃, -, hm₃, hanc⟩ := h.accounts.stands p target htarget
  rw [hplace] at hanc
  have hw : Ledger.Within (kept ++ [id]) l (l.fold id target) :=
    .fold (h.accounts.grouped.leads he₁) (h.accounts.grouped.leads htarget) hne
      (List.mem_append_right kept (List.mem_singleton.mpr rfl)) (List.mem_append_left [id] htk)
  refine ⟨h.next ?_ ?_ hw (fun _ hj => hj) fun e j he hj => ⟨?_, Ledger.moved_of_ne he hj⟩, hw⟩
  · -- The parent's group stands for memory around its members, hence around those that are folded
    -- in.
    refine h.accounts.fold he₁ htarget hne hm₃ fun e he => ?_
    have haround := h.enter_around w hm he
    rw [henter] at haround
    exact AliasTree.isEstimateAncestor_trans hanc haround
  · exact (h.gathers.perm List.perm_middle).fold h.accounts.grouped
      (List.mem_append_left queue htk)
  · by_cases hjt : j = target
    · subst hjt
      exact (Ledger.explicitEntry?_fold_eq_target h.accounts.grouped he₁ htarget hne).mpr
        (.inr he)
    · exact (Ledger.explicitEntry?_fold_of_ne h.accounts.grouped he₁ htarget hne hjt).mpr
        ⟨he, hj⟩

/-- The node has no entry for the parent: the entry of the child comes to stand for the parent. -/
theorem become_parent (w : s.tree.WellFormed)
    (h : Collecting s n l kept (id :: queue) place said P) (hm : l.memory? id = some m)
    (henter : s.tree.enter n m = p) (he₁ : l.explicitEntry? e₁ = some id) :
    Collecting s n (l.setMemory id p) (kept ++ [id]) queue (l.moved id (s.tree.enter n) place)
        said P
      ∧ Ledger.Within (kept ++ [id]) l (l.setMemory id p) := by
  have hexplicit (e : EstimateId) :
      Ledger.explicitEntry? (l.setMemory id p) e = l.explicitEntry? e :=
    Ledger.explicitEntry?_setMemory e p
  have hw : Ledger.Within (kept ++ [id]) l (l.setMemory id p) :=
    .setMemory (h.accounts.grouped.leads he₁)
      (List.mem_append_right kept (List.mem_singleton.mpr rfl)) p
  refine ⟨h.next ?_ ?_ hw (fun _ hj => List.mem_append_left [id] hj)
    fun e j he hj => ⟨(hexplicit e).trans he, Ledger.moved_of_ne he hj⟩, hw⟩
  · rw [← henter]
    exact h.accounts.setMemory he₁ hm fun e he => h.enter_around w hm he
  · rw [List.append_assoc]
    exact h.gathers.congr_ledger hexplicit

/-- The parent does not live in the node: the entry stays as it is. -/
theorem pass_through (w : s.tree.WellFormed)
    (h : Collecting s n l kept (id :: queue) place said P) (hm : l.memory? id = some m)
    (hstay : s.tree.enter n m = m) :
    Collecting s n l (kept ++ [id]) queue (l.moved id (s.tree.enter n) place) said P := by
  refine h.next ?_ ?_ (.refl _ l) (fun _ hj => List.mem_append_left [id] hj)
    fun e j he hj => ⟨he, Ledger.moved_of_ne he hj⟩
  · exact h.accounts.stay hm hstay fun e he => h.enter_around w hm he
  · rw [List.append_assoc]
    exact h.gathers

/-- One entry enters the node. -/
theorem step (w : s.tree.WellFormed) (h : Collecting s n l kept (id :: queue) place said P) :
    Collecting s n (s.collectEntry n (l, kept) id).1 (s.collectEntry n (l, kept) id).2 queue
        (l.moved id (s.tree.enter n) place) said P
      ∧ Ledger.Within (kept ++ [id]) l (s.collectEntry n (l, kept) id).1
      ∧ ∀ j ∈ (s.collectEntry n (l, kept) id).2, j ∈ kept ++ [id] := by
  obtain ⟨e₁, he₁, -⟩ := h.gathers.holds_of_mem (List.mem_append_right kept List.mem_cons_self)
  have hleads := h.accounts.grouped.leads he₁
  obtain ⟨m, hm⟩ := hleads.exists_memory
  rcases s.tree.enter_cases n m with ⟨p, hp, hn, henter⟩ | hstay
  · cases htarget : l.explicitEntry? p with
    | some target =>
      rw [collectEntry_of_known hleads.leader_eq hm hp hn htarget]
      obtain ⟨hnext, hw⟩ := h.fold_parent w hm hn henter he₁ htarget
      exact ⟨hnext, hw, fun j hj => List.mem_append_left [id] hj⟩
    | none =>
      rw [collectEntry_of_unknown hleads.leader_eq hm hp hn htarget]
      obtain ⟨hnext, hw⟩ := h.become_parent w hm henter he₁
      exact ⟨hnext, hw, fun _ hj => hj⟩
  · have hout (p : EstimateId) (hp : s.tree.estimateParent? m = some p) : s.tree.home p ≠ n := by
      intro hn
      rw [AliasTree.enter_of_parent hp hn] at hstay
      exact AliasTree.parent_ne hp hstay
    rw [collectEntry_of_outside hleads.leader_eq hm hout]
    exact ⟨h.pass_through w hm hstay, .refl _ l, fun _ hj => hj⟩

/-- All entries of the children enter the node. -/
theorem run (w : s.tree.WellFormed) (h : Collecting s n l kept queue place said P) :
    ∃ place', Collecting s n (queue.foldl (s.collectEntry n) (l, kept)).1
        (queue.foldl (s.collectEntry n) (l, kept)).2 [] place' said P
      ∧ Ledger.Within (kept ++ queue) l (queue.foldl (s.collectEntry n) (l, kept)).1
      ∧ (∀ j ∈ (queue.foldl (s.collectEntry n) (l, kept)).2, j ∈ kept ++ queue)
      ∧ ∀ e j, l.explicitEntry? e = some j →
        place' e = if j ∈ queue then s.tree.enter n (place e) else place e := by
  induction queue generalizing l kept place with
  | nil => exact ⟨place, h, .refl _ l, fun j hj => List.mem_append_left [] hj, fun e j _ => rfl⟩
  | cons id queue ih =>
    obtain ⟨-, hqueue, hapart⟩ := h.not_mem
    obtain ⟨hnext, hw, hsub⟩ := h.step w
    obtain ⟨place', hdone, hw', hsub', hplace⟩ := ih hnext
    rw [List.foldl_cons]
    -- What is kept or waits after the first entry did so before.
    have hincl (j : EntryId) (hj : j ∈ (s.collectEntry n (l, kept) id).2 ++ queue) :
        j ∈ kept ++ id :: queue := by
      rw [List.append_cons]
      rcases List.mem_append.mp hj with hj | hj
      · exact List.mem_append_left queue (hsub j hj)
      · exact List.mem_append_right _ hj
    refine ⟨place', hdone, (hw.mono fun j hj => ?_).trans (hw'.mono hincl), ?_, fun e j he => ?_⟩
    · rw [List.append_cons]
      exact List.mem_append_left queue hj
    · exact fun j hj => hincl j (hsub' j hj)
    · -- The first entry may have taken a group of the node in, but none that still waits.
      obtain ⟨i, hi⟩ := hw.exists_explicitEntry? he
      have hiq : i ∈ queue ↔ j ∈ queue := by
        refine hw.mem_iff he hi fun k hk => ?_
        rcases List.mem_append.mp hk with hk | hk
        · exact hapart k hk
        · exact List.mem_singleton.mp hk ▸ hqueue
      rw [hplace e i hi]
      simp only [hiq]
      by_cases hj : j = id
      · -- A member of `id` has moved and is not in the queue any more.
        subst hj
        rw [if_neg hqueue, if_pos List.mem_cons_self, Ledger.moved_of_member he]
      · have hmem : j ∈ id :: queue ↔ j ∈ queue :=
          List.mem_cons.trans ⟨fun h => h.resolve_left hj, .inr⟩
        rw [Ledger.moved_of_ne he hj]
        simp only [hmem]

end Collecting

/-! ## All children -/

section Relist

variable (entries : OrderedMap AliasNodeId (List EntryId))
  (unknowns : OrderedMap AliasNodeId (List UnknownEntryId))

/-- Other lists do not change leaders. -/
theorem leader_relist : (relist entries unknowns l).leader id = l.leader id := rfl

/-- Other lists do not change what an entry stands for. -/
theorem memory?_relist : (relist entries unknowns l).memory? id = l.memory? id := rfl

/-- Other lists do not change which entry a memory has. -/
theorem explicitEntry?_relist :
    Ledger.explicitEntry? (relist entries unknowns l) m = l.explicitEntry? m := rfl

/-- Entries may be moved before or after the lists are changed. -/
theorem setMemory_relist :
    (relist entries unknowns l).setMemory id m = relist entries unknowns (l.setMemory id m) := rfl

/-- Entries may be folded before or after the lists are changed. -/
theorem fold_relist (target : EntryId) :
    (relist entries unknowns l).fold id target = relist entries unknowns (l.fold id target) := by
  by_cases h : l.leader id = l.leader target
  · have hfold : l.fold id target = l := if_pos h
    rw [hfold]
    exact if_pos h
  · have hfold : l.fold id target = _ := if_neg h
    rw [hfold]
    exact if_neg h

/-- Taking an entry over does not depend on the lists and leaves them alone. -/
theorem collectEntry_relist (acc : Ledger × List EntryId) (id : EntryId) :
    s.collectEntry n (relist entries unknowns acc.1, acc.2) id
      = (relist entries unknowns (s.collectEntry n acc id).1, (s.collectEntry n acc id).2) := by
  unfold collectEntry
  simp only [leader_relist, memory?_relist, explicitEntry?_relist, setMemory_relist, fold_relist]
  cases (acc.1.memory? (acc.1.leader id)).bind s.tree.estimateParent? with
  | none => rfl
  | some parent =>
    by_cases hn : s.tree.home parent == n
    · simp only [if_pos hn]
      cases Ledger.explicitEntry? acc.1 parent <;> rfl
    · simp only [if_neg hn]

/-- A queue of entries may be taken over before or after the lists are changed. -/
theorem foldl_collectEntry_relist (acc : Ledger × List EntryId) (queue : List EntryId) :
    queue.foldl (s.collectEntry n) (relist entries unknowns acc.1, acc.2)
      = (relist entries unknowns (queue.foldl (s.collectEntry n) acc).1,
          (queue.foldl (s.collectEntry n) acc).2) :=
  List.foldl_hom (fun acc : Ledger × List EntryId => (relist entries unknowns acc.1, acc.2))
    fun acc id => collectEntry_relist entries unknowns acc id

end Relist

/-- Clearing nodes changes the lists alone. -/
theorem foldl_clearNode (nodes : List AliasNodeId) (l : Ledger) :
    nodes.foldl Ledger.clearNode l
      = relist (nodes.foldl OrderedMap.erase l.nodeEntries)
          (nodes.foldl OrderedMap.erase l.nodeUnknowns) l := by
  induction nodes generalizing l with
  | nil => rfl
  | cons c nodes ih => exact ih (l.clearNode c)

/-- Clearing a node leaves the lists of the others. -/
theorem entriesAt_clearNode {c d : AliasNodeId} (h : d ≠ c) :
    (l.clearNode c).entriesAt d = l.entriesAt d := by
  unfold Ledger.entriesAt Ledger.clearNode
  rw [OrderedMap.get?_erase_of_ne _ h]

/-- Clearing a node leaves the unknown accesses of the others. -/
theorem unknownsAt_clearNode {c d : AliasNodeId} (h : d ≠ c) :
    (l.clearNode c).unknownsAt d = l.unknownsAt d := by
  unfold Ledger.unknownsAt Ledger.clearNode
  rw [OrderedMap.get?_erase_of_ne _ h]

/-- Taking entries over leaves the lists of all nodes. -/
theorem lists_collectEntry (queue : List EntryId) (acc : Ledger × List EntryId) :
    (queue.foldl (s.collectEntry n) acc).1.nodeEntries = acc.1.nodeEntries
      ∧ (queue.foldl (s.collectEntry n) acc).1.nodeUnknowns = acc.1.nodeUnknowns := by
  have h :=
    foldl_collectEntry_relist (s := s) (n := n) acc.1.nodeEntries acc.1.nodeUnknowns acc queue
  rw [show (relist acc.1.nodeEntries acc.1.nodeUnknowns acc.1, acc.2) = acc from rfl] at h
  rw [h]
  exact ⟨rfl, rfl⟩

/-- The children are collected by one loop over their entries. -/
theorem foldl_collectChild {children : List AliasNodeId} (hnodup : children.Nodup) (l : Ledger)
    (kept : List EntryId) (unknowns : List UnknownEntryId) :
    children.foldl (s.collectChild n) (l, kept, unknowns)
      = (((children.flatMap l.entriesAt).foldl (s.collectEntry n)
            (children.foldl Ledger.clearNode l, kept)).1,
          ((children.flatMap l.entriesAt).foldl (s.collectEntry n)
            (children.foldl Ledger.clearNode l, kept)).2,
          unknowns ++ children.flatMap l.unknownsAt) := by
  induction children generalizing l kept unknowns with
  | nil => rw [List.flatMap_nil, List.flatMap_nil, List.append_nil]; rfl
  | cons c children ih =>
    obtain ⟨hc, hnodup⟩ := List.nodup_cons.mp hnodup
    let r := (l.entriesAt c).foldl (s.collectEntry n) (l.clearNode c, kept)
    show children.foldl (s.collectChild n) (r.1, r.2, unknowns ++ l.unknownsAt c) = _
    have hlists := lists_collectEntry (s := s) (n := n) (l.entriesAt c) (l.clearNode c, kept)
    -- Collecting from one child does not touch the lists of the others, so they may be read off the
    -- ledger at the start.
    have hentries : children.flatMap r.1.entriesAt = children.flatMap l.entriesAt := by
      rw [List.flatMap_def, List.flatMap_def]
      refine congrArg _ (List.map_congr_left fun d hd => ?_)
      refine Eq.trans ?_ (entriesAt_clearNode (c := c) fun h => hc (h ▸ hd))
      exact congrArg (fun m => (OrderedMap.get? m d).getD []) hlists.1
    have hunknowns : children.flatMap r.1.unknownsAt = children.flatMap l.unknownsAt := by
      rw [List.flatMap_def, List.flatMap_def]
      refine congrArg _ (List.map_congr_left fun d hd => ?_)
      refine Eq.trans ?_ (unknownsAt_clearNode (c := c) fun h => hc (h ▸ hd))
      exact congrArg (fun m => (OrderedMap.get? m d).getD []) hlists.2
    -- Clearing the other children commutes with the work on this one.
    have hclear : (children.foldl Ledger.clearNode r.1, r.2)
        = (l.entriesAt c).foldl (s.collectEntry n)
            (children.foldl Ledger.clearNode (l.clearNode c), kept) := by
      rw [foldl_clearNode, foldl_clearNode, hlists.1, hlists.2]
      exact (foldl_collectEntry_relist _ _ (l.clearNode c, kept) (l.entriesAt c)).symm
    rw [ih hnodup, hentries, hunknowns, hclear,
      ← List.foldl_append, List.foldl_cons, List.flatMap_cons, List.flatMap_cons,
      List.append_assoc]

end Privatization.Scope
