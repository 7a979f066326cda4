import Privatization.Proofs.Propagation.Run
import Privatization.Proofs.Resolution.Traits

/-!
# The outcome for a node

What a classified loop reports for a node: the result of the propagation, turned into a full
dependence where the node lies strictly below a covered one (`get?_forceCovered`). Coverage changes
no list of memories, and reports nothing milder than a full dependence but untouched memory
(`finish_outcome`).
-/

namespace Privatization

/-! ## Reclassification -/

/-- Categories that were made a dependence: markers are kept, and of the rest there is flow, anti
and output. -/
theorem FlagSet.has_toDependency (c : Categories) (a : Category) :
    (FlagSet.toDependency c).has a
      = ((c.has a && Categories.markers.has a) || Categories.dependency.has a) := by
  unfold FlagSet.toDependency
  rw [FlagSet.has_union, FlagSet.has_inter]

/-- Without the mark of an explicit access, the other categories are what they were. -/
theorem FlagSet.has_sdiff_explicit (c : Categories) {a : Category} (ha : a ≠ .explicitAccess) :
    (c \ ({.explicitAccess} : Categories)).has a = c.has a := by
  have hindex : Enumeration.index Category.explicitAccess ≠ Enumeration.index a := fun h =>
    ha (Enumeration.index_inj _ _ h).symm
  rw [FlagSet.has_sdiff, FlagSet.has_singleton, decide_eq_false hindex, Bool.not_false,
    Bool.and_true]

namespace NodeTrait

/-- The result of a node below a covered one. -/
def forced (t : NodeTrait) : NodeTrait :=
  if t.categories.has .noAccess then t else t.toDependency

/-- A node that was made a dependence counts as touched. -/
theorem has_noAccess_toDependency (t : NodeTrait) :
    t.toDependency.categories.has .noAccess = false := by
  show (FlagSet.toDependency t.categories).has .noAccess = false
  rw [FlagSet.has_toDependency, show Categories.markers.has .noAccess = false by decide,
    Bool.and_false]
  decide

theorem toDependency_toDependency (t : NodeTrait) :
    t.toDependency.toDependency = t.toDependency := by
  have hcategories (c : Categories) :
      FlagSet.toDependency (FlagSet.toDependency c) = FlagSet.toDependency c := by
    refine FlagSet.ext fun a => ?_
    rw [FlagSet.has_toDependency, FlagSet.has_toDependency]
    cases c.has a <;> cases Categories.markers.has a <;> cases Categories.dependency.has a <;> rfl
  obtain ⟨node, categories, memories, unknowns⟩ := t
  unfold toDependency
  simp only [hcategories, List.map_map, Function.comp_def]

/-- It does not matter how often a node is reclassified. -/
theorem forced_forced (t : NodeTrait) : t.forced.forced = t.forced := by
  unfold forced
  by_cases h : t.categories.has .noAccess = true
  · rw [if_pos h, if_pos h]
  · have htouched : ¬t.toDependency.categories.has .noAccess = true := by
      rw [has_noAccess_toDependency]
      exact Bool.false_ne_true
    rw [if_neg h, if_neg htouched, toDependency_toDependency]

/-- Reclassification lists the same memories. -/
theorem memories_forced (t : NodeTrait) :
    t.forced.memories.map (·.memory) = t.memories.map (·.memory) := by
  unfold forced
  split
  · rfl
  · unfold toDependency
    rw [List.map_map]
    rfl

end NodeTrait

/-! ## Nodes below covered ones -/

theorem TraitMap.get?_force (m : TraitMap) (n k : AliasNodeId) :
    (m.force n).get? k = if k = n then (m.get? k).map NodeTrait.forced else m.get? k :=
  OrderedMap.get?_modify m n k NodeTrait.forced

/-- A list of nodes is reclassified as a whole, however often it names a node. -/
theorem TraitMap.get?_foldl_force (nodes : List AliasNodeId) (m : TraitMap) (k : AliasNodeId) :
    (nodes.foldl TraitMap.force m).get? k
      = if k ∈ nodes then (m.get? k).map NodeTrait.forced else m.get? k := by
  induction nodes generalizing m with
  | nil => exact (if_neg List.not_mem_nil).symm
  | cons n nodes ih =>
    rw [List.foldl_cons, ih, TraitMap.get?_force]
    -- A node below several covered ones is forced more than once.
    by_cases hkn : k = n
    · rw [if_pos hkn, if_pos (List.mem_cons.mpr (.inl hkn)), Option.map_map]
      have htwice : NodeTrait.forced ∘ NodeTrait.forced = NodeTrait.forced :=
        funext NodeTrait.forced_forced
      rw [htwice, ite_self]
    · have hmem : k ∈ n :: nodes ↔ k ∈ nodes := by
        rw [List.mem_cons]
        exact ⟨fun h => h.resolve_left hkn, .inr⟩
      simp only [if_neg hkn, hmem]

/-- The nodes with a result stay the same, in their order. -/
theorem TraitMap.keys_foldl_force (nodes : List AliasNodeId) (m : TraitMap) :
    (nodes.foldl TraitMap.force m).keys = m.keys :=
  List.foldlRecOn (motive := fun m' : TraitMap => m'.keys = m.keys) nodes _ rfl
    fun m' h n _ => (OrderedMap.keys_modify m' n _).trans h

/-- A node of estimates with a result is covered if it is spanned. -/
theorem Ledger.mem_coveredNodes {l : Ledger} {t : AliasTree} {m : TraitMap} {n : AliasNodeId} :
    n ∈ l.coveredNodes t m ↔ (∃ node, t.node? n = some node ∧ node.kind = .estimate)
      ∧ m.contains n = true ∧ t.isSpanned l.explicitlyAccessed n = true := by
  unfold Ledger.coveredNodes
  rw [List.mem_filter, Bool.and_eq_true, Bool.and_eq_true, Option.any_eq_true]
  simp only [beq_iff_eq]
  constructor
  · rintro ⟨-, ⟨hkind, hcontains⟩, hspanned⟩
    exact ⟨hkind, hcontains, hspanned⟩
  · rintro ⟨⟨node, hnode, hkind⟩, hcontains, hspanned⟩
    have hlt := (Array.getElem?_eq_some_iff.mp hnode).1
    have hn : n ∈ t.nodeIds := List.mem_map.mpr ⟨n.index, List.mem_range.mpr hlt, rfl⟩
    exact ⟨hn, ⟨⟨node, hnode, hkind⟩, hcontains⟩, hspanned⟩

theorem AliasTree.isSpanned_of_nodeRoots {t : AliasTree} {n : AliasNodeId} {root : EstimateId}
    (h : t.nodeRoots n = [root]) (accessed : List EstimateId) : t.isSpanned accessed n
      = t.covers root (accessed.filter fun em => t.home em == n) := by
  unfold AliasTree.isSpanned
  rw [h]
  exact Bool.and_true _

/-- Whether a node lies strictly below a covered one. -/
def Ledger.isBelowCovered (l : Ledger) (t : AliasTree) (m : TraitMap) (n : AliasNodeId) : Bool :=
  (l.coveredNodes t m).any fun c => t.isNodeAncestor c n && decide (c ≠ n)

/-- What coverage does to the result of a node. -/
theorem Ledger.get?_forceCovered (l : Ledger) (t : AliasTree) (m : TraitMap) (n : AliasNodeId) :
    (l.forceCovered t m).get? n
      = (m.get? n).map fun nt => if l.isBelowCovered t m n then nt.forced else nt := by
  unfold Ledger.forceCovered
  rw [← List.foldl_flatMap, TraitMap.get?_foldl_force]
  cases hnt : m.get? n with
  | none => exact ite_self none
  | some nt =>
    have hbelow : n ∈ ((l.coveredNodes t m).flatMap fun c =>
        (t.nodeChildren c).flatMap t.descendants) ↔ l.isBelowCovered t m n = true := by
      unfold Ledger.isBelowCovered
      rw [List.mem_flatMap, List.any_eq_true]
      refine exists_congr fun c => and_congr_right fun _ => ?_
      rw [AliasTree.mem_below, Bool.and_eq_true, decide_eq_true_iff]
    simp only [hbelow]
    split
    · rfl
    · rfl

theorem Ledger.keys_forceCovered (l : Ledger) (t : AliasTree) (m : TraitMap) :
    (l.forceCovered t m).keys = m.keys := by
  unfold Ledger.forceCovered
  rw [← List.foldl_flatMap]
  exact TraitMap.keys_foldl_force _ m

/-! ## The outcome -/

/-- What is told apart by `f` is selected alone by a test that only one value of `f` passes. -/
theorem filter_eq_singleton {α β : Type} {f : α → β} {p : α → Bool} {as : List α} {a : α}
    (hnodup : (as.map f).Nodup) (ha : a ∈ as) (hp : p a = true)
    (honly : ∀ b ∈ as, p b = true → f b = f a) : as.filter p = [a] := by
  induction as with
  | nil => cases ha
  | cons b as ih =>
    obtain ⟨hb, hnodup⟩ := List.nodup_cons.mp hnodup
    rcases List.mem_cons.mp ha with rfl | ha
    · have hnone : as.filter p = [] := by
        rw [List.filter_eq_nil_iff]
        intro c hc hpc
        have hca := honly c (List.mem_cons_of_mem a hc) hpc
        exact hb (List.mem_map.mpr ⟨c, hc, hca⟩)
      rw [List.filter_cons_of_pos hp, hnone]
    · have hpb : ¬p b = true := by
        intro hpb
        have hba := honly b List.mem_cons_self hpb
        exact hb (List.mem_map.mpr ⟨a, ha, hba.symm⟩)
      rw [List.filter_cons_of_neg hpb]
      exact ih hnodup ha fun c hc => honly c (List.mem_cons_of_mem b hc)

namespace Scope

variable {s : Scope} {l : Ledger} {d : DependenceMap} {n : AliasNodeId} {nt : NodeTrait}
  {named : EstimateId → Prop} {trait : EstimateId → Trait}

/-- Whether coverage makes a node a dependence. -/
def overruled (s : Scope) (l : Ledger) (n : AliasNodeId) : Bool :=
  (s.propagate l ∅).1.isBelowCovered s.tree (s.propagate l ∅).2 n

/-- Nothing lies above the root. -/
theorem overruled_top (s : Scope) (l : Ledger) : s.overruled l AliasTree.top = false := by
  unfold overruled Ledger.isBelowCovered
  rw [List.any_eq_false]
  intro c _ hc
  rw [Bool.and_eq_true, decide_eq_true_iff] at hc
  have hle := AliasTree.index_le_of_ancestor hc.1
  exact hc.2 (congrArg AliasNodeId.mk (Nat.le_zero.mp hle))

/-- The result for a node, once coverage was looked at. -/
structure Outcome (s : Scope) (l : Ledger) (n : AliasNodeId) (nt : NodeTrait) : Prop where
  nodup : (nt.memories.map (·.memory)).Nodup
  heads : ∀ m, m ∈ nt.memories.map (·.memory) ↔ m ∈ s.heads l n
  dependence : ∀ mt ∈ nt.memories, mt.dependence = l.dependenceOf s.tree mt.memory
  categories : ∀ mt ∈ nt.memories,
    (mt.categories \ {.explicitAccess} = (s.verdict l n mt.memory).categories
        ∧ (s.overruled l n = true → mt.categories.has .noAccess = true))
      ∨ (s.overruled l n = true ∧ ∃ c, mt.categories = FlagSet.toDependency c)

theorem Listed.outcome (h : s.Listed l n nt) :
    s.Outcome l n (if s.overruled l n then nt.forced else nt) := by
  cases ho : s.overruled l n with
  | false =>
    refine ⟨h.nodup, h.heads, h.dependence, fun mt hmt => .inl ⟨h.verdict mt hmt, fun h => ?_⟩⟩
    rw [ho] at h
    cases h
  | true =>
    show s.Outcome l n nt.forced
    -- Coverage passes over a node that counts as untouched.
    by_cases hno : nt.categories.has .noAccess = true
    · have hforced : nt.forced = nt := if_pos hno
      rw [hforced]
      exact ⟨h.nodup, h.heads, h.dependence, fun mt hmt =>
        .inl ⟨h.verdict mt hmt, fun _ => h.untouched hno mt hmt⟩⟩
    · constructor
      case nodup =>
        rw [nt.memories_forced]
        exact h.nodup
      case heads =>
        rw [nt.memories_forced]
        exact h.heads
      case dependence =>
        intro mt hmt
        rw [show nt.forced = nt.toDependency from if_neg hno] at hmt
        obtain ⟨mt₀, hmt₀, rfl⟩ := List.mem_map.mp hmt
        exact h.dependence mt₀ hmt₀
      case categories =>
        intro mt hmt
        rw [show nt.forced = nt.toDependency from if_neg hno] at hmt
        obtain ⟨mt₀, -, rfl⟩ := List.mem_map.mp hmt
        exact .inr ⟨ho, mt₀.categories, rfl⟩

/-- Of the memories listed at a node, exactly one lies around a memory accessed at or below it. -/
theorem Outcome.exists_around (o : s.Outcome l n nt) {em : EstimateId}
    (hem : em ∈ l.explicit.keys) (hreach : s.reaches n em = true) :
    ∃ mt ∈ nt.memories, nt.memories.filter (fun mt => s.tree.isEstimateAncestor mt.memory em) = [mt]
      ∧ s.standsFor n mt.memory em = true := by
  obtain ⟨m, hm, hanc⟩ := exists_head_around (mem_lifted.mpr ⟨em, hem, hreach, rfl⟩)
  obtain ⟨mt, hmt, rfl⟩ := List.mem_map.mp ((o.heads m).mpr hm)
  have haround : s.tree.isEstimateAncestor mt.memory em = true :=
    AliasTree.isEstimateAncestor_trans hanc (AliasTree.liftTo_ancestor n em)
  have honly (mt' : MemoryTrait) (hmt' : mt' ∈ nt.memories)
      (h : s.tree.isEstimateAncestor mt'.memory em = true) : mt'.memory = mt.memory :=
    heads_unique_around ((o.heads _).mp (List.mem_map.mpr ⟨mt', hmt', rfl⟩)) hm h haround
  exact ⟨mt, hmt, filter_eq_singleton o.nodup hmt haround honly, standsFor_iff.mpr ⟨hreach, hanc⟩⟩

/-- What a classified loop reports is what the propagation stored, reclassified below covered
nodes. -/
theorem get?_finish (s : Scope) (l : Ledger) (settings : Settings) (n : AliasNodeId) :
    (s.finish l settings).traits.get? n = ((s.propagate l ∅).2.get? n).map
      fun nt => if s.overruled l n then nt.forced else nt :=
  Ledger.get?_forceCovered _ _ _ n

/-- The memories a classified loop reports for a node, and as what. -/
theorem finish_outcome (w : s.tree.WellFormed) (h : Noted s d named trait l) (settings : Settings)
    (n : AliasNodeId) :
    (((s.finish l settings).traits.get? n).isSome = true ↔ (∃ em, named em ∧ s.reaches n em = true)
        ∨ ∃ x ∈ l.unknowns, s.tree.isNodeAncestor n x.node = true)
      ∧ ∀ nt, (s.finish l settings).traits.get? n = some nt → s.Outcome l n nt := by
  have hunknowns (x : UnknownEntry) (hx : x ∈ l.unknowns) := h.node_lt w hx
  have hreported := propagate_reported w h.fresh hunknowns n
  rw [get?_finish]
  constructor
  · rw [Option.isSome_map, hreported.stored]
    refine or_congr_left (exists_congr fun em => ?_)
    rw [h.keys]
  · intro nt hnt
    obtain ⟨nt₀, hnt₀, rfl⟩ := Option.map_eq_some_iff.mp hnt
    exact (hreported.listed nt₀ hnt₀).outcome

/-- At the root, every head is reported under the verdict on it. -/
theorem exists_report_top {m : EstimateId} (w : s.tree.WellFormed) (h : Noted s d named trait l)
    (settings : Settings) (hm : m ∈ s.heads l AliasTree.top) :
    ∃ nt mt, (s.finish l settings).traits.get? AliasTree.top = some nt ∧ mt ∈ nt.memories
      ∧ mt.memory = m
      ∧ mt.categories \ {.explicitAccess} = (s.verdict l AliasTree.top m).categories := by
  obtain ⟨em, hkey, hreach, -⟩ := mem_lifted.mp (mem_heads.mp hm).1
  obtain ⟨hstored, houtcome⟩ := finish_outcome w h settings AliasTree.top
  obtain ⟨nt, hnt⟩ := Option.isSome_iff_exists.mp
    (hstored.mpr (.inl ⟨em, (h.keys em).mp hkey, hreach⟩))
  have o := houtcome nt hnt
  obtain ⟨mt, hmt, rfl⟩ := List.mem_map.mp ((o.heads m).mpr hm)
  refine ⟨nt, mt, hnt, hmt, rfl, ?_⟩
  rcases o.categories mt hmt with ⟨hverdict, -⟩ | ⟨hoverruled, -⟩
  · exact hverdict
  · rw [overruled_top] at hoverruled
    cases hoverruled

end Scope

end Privatization
