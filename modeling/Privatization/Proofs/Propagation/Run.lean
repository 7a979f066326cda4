import Privatization.Proofs.Propagation.Visit

/-!
# The run over the tree

Visiting one more node keeps what is known while the visit is under way (`Next.visit`), and so after
the whole visit every node of the tree has the result of the closed form (`propagate_reported`).
-/

namespace Privatization.Scope

variable {s : Scope} {l₀ l : Ledger} {done : List AliasNodeId} {n u : AliasNodeId}
  {traits : TraitMap} {place : EstimateId → EstimateId} {said : EstimateId → Trait}

/-! ## The result of a node -/

/-- A node has a group if something it reaches was accessed by name. -/
theorem Gathered.ne_nil_iff {lg : Ledger} {ids : List EntryId}
    (g : Gathered s l₀ n lg ids place said) :
    ids ≠ [] ↔ ∃ em ∈ l₀.explicit.keys, s.reaches n em = true := by
  constructor
  · intro hne
    obtain ⟨id, hid⟩ := List.exists_mem_of_ne_nil ids hne
    obtain ⟨em, hem, hreach⟩ := g.gathers.holds_of_mem hid
    exact ⟨em, g.explicit ▸ Ledger.mem_explicit_keys.mpr ⟨id, hem⟩, hreach⟩
  · rintro ⟨em, hem, hreach⟩
    obtain ⟨id, hid⟩ := Ledger.mem_explicit_keys.mp (g.explicit ▸ hem)
    exact List.ne_nil_of_mem ((g.gathers.holds em id hid).mpr hreach)

/-- The reports on the groups of a node list what the closed form lists. -/
theorem Gathered.listed {lg : Ledger} {ids : List EntryId} {nt : NodeTrait}
    (g : Gathered s l₀ n lg ids place said) (hreports : s.Reports lg ids nt.memories)
    (hdependences : lg.dependences = l₀.dependences)
    (huntouched : nt.categories.has .noAccess = true →
      ∀ mt ∈ nt.memories, mt.categories.has .noAccess = true) : s.Listed l₀ n nt := by
  -- The reports of the node are those of its groups, one for each head.
  constructor
  case nodup =>
    have hnodup := g.nodup_memories
    rw [← hreports.memories] at hnodup
    exact List.pairwise_map.mpr ((List.pairwise_map.mp hnodup).imp
      fun hab heq => hab (congrArg some heq))
  case heads =>
    intro m
    have hmem : m ∈ nt.memories.map (·.memory)
        ↔ some m ∈ nt.memories.map fun mt => some mt.memory := by
      rw [List.mem_map, List.mem_map]
      simp only [Option.some.injEq]
    rw [hmem, hreports.memories, List.mem_map, g.mem_heads_iff]
  case verdict =>
    intro mt hmt
    obtain ⟨id, hid, hd⟩ := hreports.described mt hmt
    rw [hd.categories, g.stored_value_eq hid hd.memory]
  case dependence =>
    intro mt hmt
    obtain ⟨id, hid, hd⟩ := hreports.described mt hmt
    rw [hd.dependence]
    unfold Ledger.dependenceOf
    rw [hdependences]
  case untouched => exact huntouched

/-- What the groups of a node are stored as is the result of the closed form. -/
theorem Reported.of_stored {lg : Ledger} {ids : List EntryId} {unknowns : List UnknownEntryId}
    {r : Ledger × TraitMap} (g : Gathered s l₀ n lg ids place said)
    (st : Stored s n lg ids unknowns traits place said r) (hnew : traits.get? n = none)
    (hdependences : lg.dependences = l₀.dependences)
    (hunknowns : unknowns ≠ [] ↔ ∃ x ∈ l₀.unknowns, s.tree.isNodeAncestor n x.node = true) :
    s.Reported l₀ n (r.2.get? n) := by
  by_cases hne : ids ≠ [] ∨ unknowns ≠ []
  · obtain ⟨nt, hnt, hreports, huntouched⟩ := st.report hne
    rw [hnt]
    refine ⟨⟨fun _ => hne.imp g.ne_nil_iff.mp hunknowns.mp, fun _ => rfl⟩, fun nt' hnt' => ?_⟩
    obtain rfl := Option.some.inj hnt'
    exact g.listed hreports hdependences huntouched
  · -- A node without constituents gets no result.
    rw [not_or, Decidable.not_not, Decidable.not_not] at hne
    rw [st.nothing hne.1 hne.2, hnew]
    refine ⟨⟨fun h => (by cases h), ?_⟩, fun nt hnt => (by cases hnt)⟩
    rintro (h | h)
    · exact absurd hne.1 (g.ne_nil_iff.mpr h)
    · exact absurd hne.2 (hunknowns.mpr h)

/-! ## One more node -/

namespace Next

variable (h : Next s l₀ done n l traits)

include h

theorem finishNode_eq : s.finishNode (l, traits) n =
    ((s.storeResults n (s.foldedAt l n).2 (s.unknownsFor l n) (s.foldedAt l n).1 traits).1.setNode n
        (s.foldedAt l n).2 (s.unknownsFor l n),
      (s.storeResults n (s.foldedAt l n).2 (s.unknownsFor l n) (s.foldedAt l n).1 traits).2) := by
  unfold finishNode
  simp only [h.foldl_collectChild_eq]
  rfl

/-- The unknown accesses the node takes over are those attributed at or below it. -/
theorem unknownsFor_ne_nil : s.unknownsFor l n ≠ [] ↔
    ∃ x ∈ l₀.unknowns, s.tree.isNodeAncestor n x.node = true := by
  have hsplit : s.unknownsFor l n ≠ [] ↔
      l.unknownsAt n ≠ [] ∨ ∃ c ∈ s.tree.nodeChildren n, l.unknownsAt c ≠ [] := by
    unfold unknownsFor
    rw [ne_eq, List.append_eq_nil_iff, List.flatMap_eq_nil_iff, Decidable.not_and_iff_not_or_not]
    refine or_congr_right ?_
    constructor
    · intro hall
      exact Classical.byContradiction fun hnone => hall fun c hc =>
        Classical.byContradiction fun hne => hnone ⟨c, hc, hne⟩
    · rintro ⟨c, hc, hne⟩ hall
      exact hne (hall c hc)
  rw [hsplit, h.waiting n h.frontier]
  constructor
  · rintro (⟨x, hx, hshare⟩ | ⟨c, hc, hne⟩)
    · exact ⟨x, hx, (AliasTree.share_of_visit h.children h.around).mpr (.inl hshare)⟩
    · obtain ⟨x, hx, hshare⟩ := (h.waiting c (h.child_frontier hc)).mp hne
      exact ⟨x, hx, (AliasTree.share_of_visit h.children h.around).mpr (.inr ⟨c, hc, hshare⟩)⟩
  · rintro ⟨x, hx, hanc⟩
    rcases (AliasTree.share_of_visit h.children h.around).mp hanc with hshare | ⟨c, hc, hshare⟩
    · exact .inl ⟨x, hx, hshare⟩
    · exact .inr ⟨c, hc, (h.waiting c (h.child_frontier hc)).mpr ⟨x, hx, hshare⟩⟩

/-- What another node of the frontier holds does not reach the node. -/
theorem not_reaches {u x : AliasNodeId} (hu : s.tree.Frontier (done ++ [n]) u) (hne : u ≠ n)
    (hshare : s.tree.share done u x) : ¬s.tree.isNodeAncestor n x = true := by
  intro hreach
  have hreach : s.tree.share (done ++ [n]) n x := AliasTree.share_visit_self.mpr hreach
  exact (AliasTree.Closed.visit h.children h.closed).share_disjoint hu
    (AliasTree.frontier_visit h.around) hne ((AliasTree.share_visit_of_ne hne).mpr hshare) hreach

/-! ### What the visit leaves behind -/

section Finished

variable {lg : Ledger} {ids : List EntryId} {unknowns : List UnknownEntryId}
  {r : Ledger × TraitMap}
  (hw : Ledger.Within (l.entriesAt n ++ s.queueAt l n) (s.takenFrom l n) lg)
  (st : Stored s n lg ids unknowns traits place said r)

include hw st

/-- The lists of the nodes other than this one, once it is finished. -/
theorem finished_lists (hu : s.tree.Frontier (done ++ [n]) u) (hne : u ≠ n) :
    (r.1.setNode n ids unknowns).entriesAt u = l.entriesAt u
      ∧ (r.1.setNode n ids unknowns).unknownsAt u = l.unknownsAt u := by
  obtain ⟨hentries, hunknowns⟩ := h.lists_takenFrom hu hne
  rw [← hentries, ← hunknowns]
  constructor
  · show ((r.1.nodeEntries.insert n ids).get? u).getD [] = (s.takenFrom l n).entriesAt u
    rw [OrderedMap.get?_insert_of_ne _ _ hne, st.refines.within.nodeEntries, hw.nodeEntries]
    rfl
  · show ((r.1.nodeUnknowns.insert n unknowns).get? u).getD [] = (s.takenFrom l n).unknownsAt u
    rw [OrderedMap.get?_insert_of_ne _ _ hne, st.refines.within.nodeUnknowns, hw.nodeUnknowns]
    rfl

/-- The node lists what reaches it, and other nodes of the frontier what they listed. -/
theorem finished_gathers (g : Gathered s l₀ n lg ids place said)
    (hu : s.tree.Frontier (done ++ [n]) u) :
    (r.1.setNode n ids unknowns).Gathers ((r.1.setNode n ids unknowns).entriesAt u)
      fun em => s.tree.share (done ++ [n]) u (s.tree.home em) := by
  have hgroups (em : EstimateId) :
      Ledger.explicitEntry? (r.1.setNode n ids unknowns) em = lg.explicitEntry? em :=
    st.refines.within.explicitEntry?_eq em
  by_cases hne : u = n
  · subst hne
    have hat : (r.1.setNode u ids unknowns).entriesAt u = ids := by
      show ((r.1.nodeEntries.insert u ids).get? u).getD [] = ids
      rw [OrderedMap.get?_insert_self]
      rfl
    rw [hat]
    exact (g.gathers.congr_ledger hgroups).congr fun em _ => AliasTree.share_visit_self.symm
  · obtain ⟨entries, waiting, htaken⟩ := takenFrom_eq s l n
    have hlist := h.lists u (AliasTree.frontier_of_visit hu)
    -- The work on the node touched none of the groups the other one lists.
    have hapart := hlist.disjoint h.gathers_all fun em => h.not_reaches hu hne
    rw [(h.finished_lists hw st hu hne).1]
    have hsame (em : EstimateId) :
        Ledger.explicitEntry? (s.takenFrom l n) em = l.explicitEntry? em := by
      rw [htaken]
      rfl
    refine (((hlist.congr_ledger hsame).within hw hapart).congr_ledger hgroups).congr ?_
    exact fun em _ => (AliasTree.share_visit_of_ne hne).symm

/-- Unknown accesses wait at a node of the frontier exactly if there are any in its share. -/
theorem finished_waiting (hunknowns : unknowns ≠ [] ↔
      ∃ x ∈ l₀.unknowns, s.tree.isNodeAncestor n x.node = true)
    (hu : s.tree.Frontier (done ++ [n]) u) :
    (r.1.setNode n ids unknowns).unknownsAt u ≠ [] ↔
      ∃ x ∈ l₀.unknowns, s.tree.share (done ++ [n]) u x.node := by
  by_cases hne : u = n
  · subst hne
    have hat : (r.1.setNode u ids unknowns).unknownsAt u = unknowns := by
      show ((r.1.nodeUnknowns.insert u unknowns).get? u).getD [] = unknowns
      rw [OrderedMap.get?_insert_self]
      rfl
    rw [hat, hunknowns]
    exact exists_congr fun x => and_congr_right fun _ => AliasTree.share_visit_self.symm
  · rw [(h.finished_lists hw st hu hne).2, h.waiting u (AliasTree.frontier_of_visit hu)]
    exact exists_congr fun x => and_congr_right fun _ => (AliasTree.share_visit_of_ne hne).symm

end Finished

/-- Memory at the node stands where it is lifted to there, and other memory where it was. -/
theorem finished_placed (hplaced : s.Placed l₀ done place said)
    {place' : EstimateId → EstimateId}
    (hself : ∀ em ∈ l₀.explicit.keys, s.reaches n em = true → place' em = s.tree.liftTo n em)
    (hstay : ∀ em ∈ l₀.explicit.keys, s.reaches n em = false → place' em = place em) :
    s.Placed l₀ (done ++ [n]) place' fun em => if s.reaches n em then s.heard l₀ n em else said em
    := by
  intro u hu em hem hshare
  show place' em = s.placeAt (done ++ [n]) u em
    ∧ (if s.reaches n em then s.heard l₀ n em else said em) = s.heardAt l₀ (done ++ [n]) u em
  by_cases hne : u = n
  · subst hne
    have hreach : s.reaches u em = true := AliasTree.share_visit_self.mp hshare
    have hdone : u ∈ done ++ [u] := List.mem_append_right done (List.mem_singleton.mpr rfl)
    rw [if_pos hreach, placeAt, heardAt, if_pos hdone, if_pos hdone, hself em hem hreach]
    exact ⟨rfl, rfl⟩
  · have hshare' := (AliasTree.share_visit_of_ne hne).mp hshare
    have hreach : s.reaches n em = false :=
      Bool.eq_false_iff.mpr (h.not_reaches hu hne hshare')
    have hdone : u ∈ done ++ [n] ↔ u ∈ done := by
      rw [List.mem_append, List.mem_singleton]
      exact ⟨fun hu => hu.resolve_right hne, .inl⟩
    rw [hreach, if_neg Bool.false_ne_true, hstay em hem hreach, placeAt, heardAt]
    simp only [hdone]
    exact hplaced u (AliasTree.frontier_of_visit hu) em hem hshare'

/-- Visiting a node whose children were visited keeps what is known. -/
theorem visit : Underway s l₀ (done ++ [n]) (s.finishNode (l, traits) n).1
    (s.finishNode (l, traits) n).2 := by
  obtain ⟨place, said, ha, hplaced⟩ := h.accounts
  obtain ⟨place', g, hw, hstay⟩ := h.gathered ha hplaced
  obtain ⟨entries, unknowns, htaken⟩ := takenFrom_eq s l n
  have st := storeResults_spec g.accounts g.gathers (n := n) (s.unknownsFor l n) traits
  have hdependences : (s.foldedAt l n).1.dependences = l₀.dependences := by
    rw [hw.dependences, htaken]
    exact h.dependences
  have hunknowns : (s.foldedAt l n).1.unknowns = l₀.unknowns := by
    rw [hw.unknowns, htaken]
    exact h.unknowns
  rw [h.finishNode_eq]
  -- From here on only what is known about the stored result counts.
  generalize s.storeResults n _ _ _ traits = r at st
  have hwithin := st.refines.within
  constructor
  case closed => exact AliasTree.Closed.visit h.children h.closed
  case explicit => exact hwithin.explicit.trans g.explicit
  case unknowns => exact hwithin.unknowns.trans hunknowns
  case dependences => exact hwithin.dependences.trans hdependences
  case accounts =>
    exact ⟨place', _, (g.accounts_stored st).relist _ _,
      h.finished_placed hplaced g.placed hstay⟩
  case lists => exact fun u => h.finished_gathers hw st g
  case waiting => exact fun u => h.finished_waiting hw st h.unknownsFor_ne_nil
  case missing =>
    intro u hu
    rw [List.mem_append, not_or, List.mem_singleton] at hu
    exact (st.elsewhere u hu.2).trans (h.missing u hu.1)
  case reported =>
    intro u hu
    show s.Reported l₀ u (r.2.get? u)
    by_cases hne : u = n
    · subst hne
      exact .of_stored g st (h.missing u h.not_mem) hdependences h.unknownsFor_ne_nil
    · have hud : u ∈ done := (List.mem_append.mp hu).resolve_right fun hun =>
        hne (List.mem_singleton.mp hun)
      rw [st.elsewhere u hne]
      exact h.reported u hud

end Next

/-! ## The whole visit -/

/-- A run over a part of the tree that lists children first keeps what is known, and whatever one
visit keeps besides. -/
theorem visit_run {P : List AliasNodeId → Ledger → TraitMap → Prop} {rest : List AliasNodeId}
    (w : s.tree.WellFormed) (h : Underway s l₀ done l traits) (hP : P done l traits)
    (horder : ∀ before n after, rest = before ++ n :: after →
      (∀ c, s.tree.nodeParent? c = some n → c ∈ done ++ before)
        ∧ ∀ a ∈ done ++ before, s.tree.isNodeAncestor a n = false)
    (hstep : ∀ done n l traits, Next s l₀ done n l traits → P done l traits →
      P (done ++ [n]) (s.finishNode (l, traits) n).1 (s.finishNode (l, traits) n).2) :
    Underway s l₀ (done ++ rest) (rest.foldl s.finishNode (l, traits)).1
        (rest.foldl s.finishNode (l, traits)).2
      ∧ P (done ++ rest) (rest.foldl s.finishNode (l, traits)).1
        (rest.foldl s.finishNode (l, traits)).2 := by
  -- Each node moves from `rest` to `done`, so its children and what lies around it keep their side.
  induction rest generalizing done l traits with
  | nil =>
    rw [List.append_nil]
    exact ⟨h, hP⟩
  | cons n rest ih =>
    obtain ⟨hchildren, haround⟩ := horder [] n rest rfl
    rw [List.append_nil] at hchildren haround
    have hnext : Next s l₀ done n l traits := { h with
      wellFormed := w
      children := hchildren
      around := haround }
    rw [List.foldl_cons, List.append_cons done n rest]
    refine ih hnext.visit (hstep done n l traits hnext hP) fun before m after hrest => ?_
    rw [List.append_assoc]
    exact horder (n :: before) m after (congrArg (n :: ·) hrest)

theorem Underway.run {rest : List AliasNodeId} (h : Underway s l₀ done l traits)
    (w : s.tree.WellFormed)
    (horder : ∀ before n after, rest = before ++ n :: after →
      (∀ c, s.tree.nodeParent? c = some n → c ∈ done ++ before)
        ∧ ∀ a ∈ done ++ before, s.tree.isNodeAncestor a n = false) :
    Underway s l₀ (done ++ rest) (rest.foldl s.finishNode (l, traits)).1
      (rest.foldl s.finishNode (l, traits)).2 :=
  (visit_run (P := fun _ _ _ => True) w h trivial horder fun _ _ _ _ _ _ => trivial).1

/-- After the whole visit, every node has the result of the closed form. -/
theorem propagate_reported (w : s.tree.WellFormed) (f : l₀.Fresh s.tree)
    (hunknowns : ∀ x ∈ l₀.unknowns, x.node.index < s.tree.nodes.size) (n : AliasNodeId) :
    s.Reported l₀ n ((s.propagate l₀ ∅).2.get? n) := by
  have hrun : Underway s l₀ ([] ++ s.tree.postOrder) _ _ := (Underway.init f).run w
    fun before n after hrest => w.postOrder_split hrest
  rw [List.nil_append] at hrun
  by_cases hn : n.index < s.tree.nodes.size
  · exact hrun.reported n (w.mem_postOrder.mpr hn)
  · -- Outside the tree there is nothing to report.
    have hnone := hrun.missing n fun hmem => hn (w.mem_postOrder.mp hmem)
    show s.Reported l₀ n ((s.tree.postOrder.foldl s.finishNode (l₀, ∅)).2.get? n)
    rw [hnone]
    refine ⟨⟨fun h => (by cases h), ?_⟩, fun nt hnt => (by cases hnt)⟩
    rintro (⟨em, -, hem⟩ | ⟨x, hx, hanc⟩)
    · exact absurd (Nat.lt_of_le_of_lt (AliasTree.index_le_of_ancestor hem) (w.home_lt em)) hn
    · exact absurd (Nat.lt_of_le_of_lt (AliasTree.index_le_of_ancestor hanc) (hunknowns x hx)) hn

end Privatization.Scope
