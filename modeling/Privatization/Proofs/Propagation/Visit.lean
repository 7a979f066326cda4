import Privatization.Classification.Propagation
import Privatization.Proofs.Propagation.Collecting
import Privatization.Proofs.Propagation.Frontier
import Privatization.Proofs.Propagation.Verdict

/-!
# Visiting a node

What the ledger and the results are while the tree is visited children first (`Underway`): every
node of the frontier lists the groups of what it holds, the account of the ledger places memory
where it was lifted to by the visited nodes, and the results of the visited nodes are those of the
closed form (`Reported`).

The node visited next takes its own list and those of its children, moves the groups to where their
members are lifted at this node, and is left with groups at its heads (`Next.gathered`).
-/

namespace Privatization.Scope

variable {s : Scope} {l₀ l : Ledger} {done : List AliasNodeId} {n u : AliasNodeId}
  {traits : TraitMap} {place : EstimateId → EstimateId} {said : EstimateId → Trait}

/-- The result for a node lists its heads, each once and under the verdict on it. A node counts as
untouched only if its memory does. -/
structure Listed (s : Scope) (l₀ : Ledger) (n : AliasNodeId) (nt : NodeTrait) : Prop where
  nodup : (nt.memories.map (·.memory)).Nodup
  heads : ∀ m, m ∈ nt.memories.map (·.memory) ↔ m ∈ s.heads l₀ n
  verdict : ∀ mt ∈ nt.memories,
    mt.categories \ {.explicitAccess} = (s.verdict l₀ n mt.memory).categories
  dependence : ∀ mt ∈ nt.memories, mt.dependence = l₀.dependenceOf s.tree mt.memory
  untouched : nt.categories.has .noAccess = true →
    ∀ mt ∈ nt.memories, mt.categories.has .noAccess = true

/-- The result for a node is the one of the closed form: there is one if something was accessed at
or below the node. -/
structure Reported (s : Scope) (l₀ : Ledger) (n : AliasNodeId) (result : Option NodeTrait) :
    Prop where
  stored : result.isSome = true ↔ (∃ em ∈ l₀.explicit.keys, s.reaches n em = true)
    ∨ ∃ x ∈ l₀.unknowns, s.tree.isNodeAncestor n x.node = true
  listed : ∀ nt, result = some nt → s.Listed l₀ n nt

/-- Where memory stands that a node of the frontier holds. -/
def placeAt (s : Scope) (done : List AliasNodeId) (u : AliasNodeId) (em : EstimateId) :
    EstimateId :=
  if u ∈ done then s.tree.liftTo u em else em

/-- What was said about memory that a node of the frontier holds. -/
def heardAt (s : Scope) (l₀ : Ledger) (done : List AliasNodeId) (u : AliasNodeId)
    (em : EstimateId) : Trait :=
  if u ∈ done then s.heard l₀ u em else l₀.traitOf em

/-- What the nodes of the frontier hold is placed where the visited nodes lifted it to. -/
def Placed (s : Scope) (l₀ : Ledger) (done : List AliasNodeId) (place : EstimateId → EstimateId)
    (said : EstimateId → Trait) : Prop :=
  ∀ u, s.tree.Frontier done u → ∀ em ∈ l₀.explicit.keys,
    s.tree.share done u (s.tree.home em) →
      place em = s.placeAt done u em ∧ said em = s.heardAt l₀ done u em

/-- Where the nodes `done` of the tree were visited, starting from the ledger `l₀`. -/
structure Underway (s : Scope) (l₀ : Ledger) (done : List AliasNodeId) (l : Ledger)
    (traits : TraitMap) : Prop where
  closed : s.tree.Closed done
  explicit : l.explicit = l₀.explicit
  unknowns : l.unknowns = l₀.unknowns
  dependences : l.dependences = l₀.dependences
  accounts : ∃ place said, l.Accounts s.tree place said ∧ s.Placed l₀ done place said
  lists : ∀ u, s.tree.Frontier done u →
    l.Gathers (l.entriesAt u) fun em => s.tree.share done u (s.tree.home em)
  waiting : ∀ u, s.tree.Frontier done u →
    (l.unknownsAt u ≠ [] ↔ ∃ x ∈ l₀.unknowns, s.tree.share done u x.node)
  missing : ∀ u, u ∉ done → traits.get? u = none
  reported : ∀ u ∈ done, s.Reported l₀ u (traits.get? u)

/-- Before the first node is visited, every node holds its own memory. -/
theorem Underway.init (f : l₀.Fresh s.tree) : Underway s l₀ [] l₀ ∅ where
  closed d hd := absurd hd List.not_mem_nil
  explicit := rfl
  unknowns := rfl
  dependences := rfl
  accounts := by
    refine ⟨fun em => em, l₀.traitOf, f.accounts, fun u _ em _ _ => ⟨?_, ?_⟩⟩
    · exact (if_neg List.not_mem_nil).symm
    · exact (if_neg List.not_mem_nil).symm
  lists u _ := (f.gathers u).congr fun em _ =>
    (AliasTree.share_of_not_mem List.not_mem_nil).symm
  waiting u _ := by
    rw [f.waiting]
    exact exists_congr fun x => and_congr_right fun _ =>
      (AliasTree.share_of_not_mem List.not_mem_nil).symm
  missing u _ := OrderedMap.get?_empty u
  reported u hu := absurd hu List.not_mem_nil

/-! ## Visiting a node -/

/-- What is known where a node is visited next. -/
structure Next (s : Scope) (l₀ : Ledger) (done : List AliasNodeId) (n : AliasNodeId) (l : Ledger)
    (traits : TraitMap) : Prop extends Underway s l₀ done l traits where
  wellFormed : s.tree.WellFormed
  children : ∀ c, s.tree.nodeParent? c = some n → c ∈ done
  around : ∀ a ∈ done, s.tree.isNodeAncestor a n = false

/-- The entries the node takes over from its children. -/
def queueAt (s : Scope) (l : Ledger) (n : AliasNodeId) : List EntryId :=
  (s.tree.nodeChildren n).flatMap l.entriesAt

/-- The unknown accesses of the node and its children. -/
def unknownsFor (s : Scope) (l : Ledger) (n : AliasNodeId) : List UnknownEntryId :=
  l.unknownsAt n ++ (s.tree.nodeChildren n).flatMap l.unknownsAt

/-- The ledger once the lists of the node and its children were taken. -/
def takenFrom (s : Scope) (l : Ledger) (n : AliasNodeId) : Ledger :=
  (s.tree.nodeChildren n).foldl Ledger.clearNode (l.clearNode n)

theorem takenFrom_eq (s : Scope) (l : Ledger) (n : AliasNodeId) : ∃ entries unknowns,
    s.takenFrom l n = Ledger.relist entries unknowns l := by
  unfold takenFrom
  rw [foldl_clearNode]
  exact ⟨_, _, rfl⟩

theorem entriesAt_foldl_clearNode {nodes : List AliasNodeId} (hu : u ∉ nodes) :
    (nodes.foldl Ledger.clearNode l).entriesAt u = l.entriesAt u
      ∧ (nodes.foldl Ledger.clearNode l).unknownsAt u = l.unknownsAt u := by
  induction nodes generalizing l with
  | nil => exact ⟨rfl, rfl⟩
  | cons c nodes ih =>
    rw [List.mem_cons, not_or] at hu
    obtain ⟨hentries, hunknowns⟩ := ih (l := l.clearNode c) hu.2
    exact ⟨hentries.trans (entriesAt_clearNode hu.1), hunknowns.trans (unknownsAt_clearNode hu.1)⟩

/-- The groups the node is left with. -/
def foldedAt (s : Scope) (l : Ledger) (n : AliasNodeId) : Ledger × List EntryId :=
  s.foldDuplicates n
    ((s.queueAt l n).foldl (s.collectEntry n) (s.takenFrom l n, l.entriesAt n)).1
    ((s.queueAt l n).foldl (s.collectEntry n) (s.takenFrom l n, l.entriesAt n)).2

namespace Next

variable (h : Next s l₀ done n l traits)

include h

theorem not_mem : n ∉ done := AliasTree.not_mem_of_around h.around

theorem frontier : s.tree.Frontier done n := fun hn => absurd hn h.not_mem

theorem child_ne {c : AliasNodeId} (hc : c ∈ s.tree.nodeChildren n) : c ≠ n := by
  rintro rfl
  exact h.not_mem (h.children c (AliasTree.mem_nodeChildren.mp hc))

theorem child_frontier {c : AliasNodeId} (hc : c ∈ s.tree.nodeChildren n) :
    s.tree.Frontier done c :=
  AliasTree.frontier_child h.around (AliasTree.mem_nodeChildren.mp hc)

/-- Memory a child holds is everything at or below the child. -/
theorem share_child {c x : AliasNodeId} (hc : c ∈ s.tree.nodeChildren n) :
    s.tree.share done c x ↔ s.tree.isNodeAncestor c x = true :=
  AliasTree.share_of_mem (h.children c (AliasTree.mem_nodeChildren.mp hc))

/-- The queue lists the groups of what lies strictly below the node. -/
theorem gathers_queue : l.Gathers (s.queueAt l n) fun em =>
    ∃ c ∈ s.tree.nodeChildren n, s.tree.share done c (s.tree.home em) := by
  refine .flatMap (AliasTree.nodeChildren_nodup n) (fun c hc => h.lists c (h.child_frontier hc)) ?_
  intro c hc d hd em hcem hdem
  by_cases hne : c = d
  · exact hne
  · exact absurd hdem
      (h.closed.share_disjoint (h.child_frontier hc) (h.child_frontier hd) hne hcem)

/-- The lists of the node and its children together gather what reaches the node. -/
theorem gathers_all : l.Gathers (l.entriesAt n ++ s.queueAt l n) fun em =>
    s.reaches n em = true := by
  have happend := (h.lists n h.frontier).append h.gathers_queue fun em hn ⟨c, hc, hcem⟩ =>
    h.closed.share_disjoint h.frontier (h.child_frontier hc) (h.child_ne hc).symm hn hcem
  exact happend.congr fun em _ => (AliasTree.share_of_visit h.children h.around).symm

/-! ### Taking the lists -/

/-- The lists of other nodes of the frontier are still there. -/
theorem lists_takenFrom (hu : s.tree.Frontier (done ++ [n]) u) (hne : u ≠ n) :
    (s.takenFrom l n).entriesAt u = l.entriesAt u
      ∧ (s.takenFrom l n).unknownsAt u = l.unknownsAt u := by
  -- A child leaves the frontier once its parent is visited.
  have hchild : u ∉ s.tree.nodeChildren n := by
    intro hun
    have hparent := AliasTree.mem_nodeChildren.mp hun
    exact hu (List.mem_append_left [n] (h.children u hparent)) n hparent
      (List.mem_append_right done (List.mem_singleton.mpr rfl))
  obtain ⟨hentries, hunknowns⟩ := entriesAt_foldl_clearNode (l := l.clearNode n) hchild
  exact ⟨hentries.trans (entriesAt_clearNode hne), hunknowns.trans (unknownsAt_clearNode hne)⟩

/-- What the node collects: its own entries and those of its children. -/
theorem foldl_collectChild_eq :
    (s.tree.nodeChildren n).foldl (s.collectChild n)
        (l.clearNode n, l.entriesAt n, l.unknownsAt n)
      = (((s.queueAt l n).foldl (s.collectEntry n) (s.takenFrom l n, l.entriesAt n)).1,
          ((s.queueAt l n).foldl (s.collectEntry n) (s.takenFrom l n, l.entriesAt n)).2,
          s.unknownsFor l n) := by
  rw [foldl_collectChild (AliasTree.nodeChildren_nodup n)]
  have hqueue : (s.tree.nodeChildren n).flatMap (l.clearNode n).entriesAt = s.queueAt l n := by
    unfold queueAt
    rw [List.flatMap_def, List.flatMap_def]
    exact congrArg _ (List.map_congr_left fun c hc => entriesAt_clearNode (h.child_ne hc))
  have hunknowns : (s.tree.nodeChildren n).flatMap (l.clearNode n).unknownsAt
      = (s.tree.nodeChildren n).flatMap l.unknownsAt := by
    rw [List.flatMap_def, List.flatMap_def]
    exact congrArg _ (List.map_congr_left fun c hc => unknownsAt_clearNode (h.child_ne hc))
  rw [hqueue, hunknowns]
  rfl

/-! ### Collecting and folding -/

/-- Memory of the node itself is where it lives, with what the resolvers found. -/
theorem own_eq (hplaced : s.Placed l₀ done place said) {em : EstimateId}
    (hem : em ∈ l₀.explicit.keys) (hn : s.tree.home em = n) :
    place em = em ∧ said em = l₀.traitOf em := by
  obtain ⟨hp, hs⟩ := hplaced n h.frontier em hem ((AliasTree.share_of_not_mem h.not_mem).mpr hn)
  exact ⟨hp.trans (if_neg h.not_mem), hs.trans (if_neg h.not_mem)⟩

/-- Memory below a child is where the child lifted it to, with what was said there. -/
theorem child_eq (hplaced : s.Placed l₀ done place said) {c : AliasNodeId} {em : EstimateId}
    (hem : em ∈ l₀.explicit.keys) (hc : c ∈ s.tree.nodeChildren n)
    (hcem : s.tree.share done c (s.tree.home em)) :
    place em = s.tree.liftTo c em ∧ said em = s.heard l₀ c em := by
  have hdone := h.children c (AliasTree.mem_nodeChildren.mp hc)
  obtain ⟨hp, hs⟩ := hplaced c (h.child_frontier hc) em hem hcem
  exact ⟨hp.trans (if_pos hdone), hs.trans (if_pos hdone)⟩

/-- What was said about memory that reaches the node: what the resolvers found, and the copies made
below the node. -/
theorem told (hplaced : s.Placed l₀ done place said) {em : EstimateId}
    (hem : em ∈ l₀.explicit.keys) (hreach : s.reaches n em = true) :
    said em = (l₀.traitOf em).meet (.copyIn (s.copiedBelow l₀ n em)) := by
  rcases (AliasTree.share_of_visit h.children h.around).mp hreach with hn | ⟨c, hc, hcem⟩
  · rw [AliasTree.share_of_not_mem h.not_mem] at hn
    rw [(h.own_eq hplaced hem hn).2, copiedBelow_of_home hn]
    exact (Trait.meet_noAccess _).symm
  · rw [(h.child_eq hplaced hem hc hcem).2, copiedBelow_of_child hc ((h.share_child hc).mp hcem)]
    rfl

theorem collecting (ha : l.Accounts s.tree place said) (hplaced : s.Placed l₀ done place said) :
    Collecting s n (s.takenFrom l n) (l.entriesAt n) (s.queueAt l n) place said
      fun em => s.reaches n em = true := by
  obtain ⟨entries, unknowns, htaken⟩ := takenFrom_eq s l n
  have hkey {e : EstimateId} {j : EntryId} (he : l.explicitEntry? e = some j) :
      e ∈ l₀.explicit.keys := h.explicit ▸ Ledger.mem_explicit_keys.mpr ⟨j, he⟩
  rw [htaken]
  constructor
  case accounts => exact ha.relist entries unknowns
  case gathers => exact h.gathers_all.congr_ledger fun _ => rfl
  case own =>
    intro e j he hn
    refine ⟨((h.lists n h.frontier).holds e j he).mpr ?_, (h.own_eq hplaced (hkey he) hn).1⟩
    exact (AliasTree.share_of_not_mem h.not_mem).mpr hn
  case below =>
    intro e j hj he
    obtain ⟨c, hc, hce⟩ := (h.gathers_queue.holds e j he).mp hj
    refine ⟨c, AliasTree.mem_nodeChildren.mp hc, ?_⟩
    rw [(h.child_eq hplaced (hkey he) hc hce).1]
    exact AliasTree.liftTo_home ((h.share_child hc).mp hce)

/-- Where memory stands that arrived at the node: at or below the node, and from there it settles
where it is lifted to. Memory that does not reach the node stays where it was. -/
theorem arrived (hplaced : s.Placed l₀ done place said) {place' : EstimateId → EstimateId}
    (hown : ∀ e ∈ l₀.explicit.keys, s.tree.home e = n → place' e = e)
    (hplace' : ∀ e j, l.explicitEntry? e = some j →
      place' e = if j ∈ s.queueAt l n then s.tree.enter n (place e) else place e)
    {e : EstimateId} (he : e ∈ l₀.explicit.keys) :
    (s.reaches n e = true → s.tree.isNodeAncestor n (s.tree.home (place' e)) = true
        ∧ s.tree.settle n (place' e) = s.tree.liftTo n e)
      ∧ (s.reaches n e = false → place' e = place e) := by
  obtain ⟨j, hj⟩ := Ledger.mem_explicit_keys.mp (h.explicit ▸ he)
  constructor
  · intro hreach
    rcases (AliasTree.share_of_visit h.children h.around).mp hreach with hn | ⟨c, hc, hce⟩
    · -- Memory of the node itself has not moved.
      rw [AliasTree.share_of_not_mem h.not_mem] at hn
      rw [hown e he hn, AliasTree.liftTo_of_home hn, hn]
      exact ⟨AliasTree.isNodeAncestor_refl n, rfl⟩
    · -- Memory from a child was lifted to the child and took one step into the node.
      have hparent := AliasTree.mem_nodeChildren.mp hc
      have hcr := (h.share_child hc).mp hce
      have hqueue : j ∈ s.queueAt l n := (h.gathers_queue.holds e j hj).mpr ⟨c, hc, hce⟩
      rw [hplace' e j hj, if_pos hqueue, (h.child_eq hplaced he hc hce).1,
        AliasTree.liftTo_of_child hparent hcr]
      exact ⟨AliasTree.enter_home hparent (AliasTree.liftTo_home hcr), rfl⟩
  · intro hreach
    have hqueue : j ∉ s.queueAt l n := by
      intro hqueue
      obtain ⟨c, hc, hce⟩ := (h.gathers_queue.holds e j hj).mp hqueue
      have := (AliasTree.share_of_visit h.children h.around).mpr (.inr ⟨c, hc, hce⟩)
      rw [reaches, this] at hreach
      cases hreach
    rw [hplace' e j hj, if_neg hqueue]

/-- The node is left with groups at its heads, and other groups are left alone. -/
theorem gathered (ha : l.Accounts s.tree place said) (hplaced : s.Placed l₀ done place said) :
    ∃ place', Gathered s l₀ n (s.foldedAt l n).1 (s.foldedAt l n).2 place' said
      ∧ Ledger.Within (l.entriesAt n ++ s.queueAt l n) (s.takenFrom l n) (s.foldedAt l n).1
      ∧ ∀ em ∈ l₀.explicit.keys, s.reaches n em = false → place' em = place em := by
  obtain ⟨entries, unknowns, htaken⟩ := takenFrom_eq s l n
  have hexplicit : (s.takenFrom l n).explicit = l₀.explicit := by
    rw [htaken]
    exact h.explicit
  -- First all entries of the children enter the node, then duplicates are folded.
  obtain ⟨place₁, hdone, hw₁, hsub₁, hplace₁⟩ := (h.collecting ha hplaced).run h.wellFormed
  have hexplicit₁ := hw₁.explicit.trans hexplicit
  have hown (e : EstimateId) (he : e ∈ l₀.explicit.keys) (hn : s.tree.home e = n) :
      place₁ e = e := by
    obtain ⟨j, hj⟩ := Ledger.mem_explicit_keys.mp (hexplicit₁ ▸ he)
    exact (hdone.own e j hj hn).2
  have harrived {e : EstimateId} (he : e ∈ l₀.explicit.keys) :=
    h.arrived hplaced hown (fun e j hj => hplace₁ e j (by rw [htaken]; exact hj)) he
  have hgathers := hdone.gathers
  rw [List.append_nil] at hgathers
  obtain ⟨place₂, ha₂, hg₂, hapart, hw₂, hsub₂, hplace₂⟩ :=
    foldDuplicates_spec h.wellFormed hdone.accounts hgathers fun e he hreach =>
      ((harrived (hexplicit₁ ▸ he)).1 hreach).1
  refine ⟨place₂, ⟨hw₂.explicit.trans hexplicit₁, ha₂, hg₂, hapart, fun e he hreach => ?_,
    fun e he hreach => h.told hplaced he hreach⟩, hw₁.trans (hw₂.mono hsub₁), fun e he hreach => ?_⟩
  · rw [(hplace₂ e (hexplicit₁ ▸ he)).1 hreach]
    exact ((harrived he).1 hreach).2
  · rw [(hplace₂ e (hexplicit₁ ▸ he)).2 (by rw [hreach]; exact Bool.false_ne_true)]
    exact (harrived he).2 hreach

end Next

end Privatization.Scope
