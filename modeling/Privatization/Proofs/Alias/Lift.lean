import Privatization.Proofs.Alias.Ancestry

/-!
# Lifting memory towards the root

How far the memory of an access is generalized by the time it is reported at a node. Inside a node
it is lifted to the coarsest memory around it that still lives there (`settle`); on entering the
parent node it becomes its own parent if that one lives there and stays what it is otherwise
(`enter`). `liftTo n e` is what becomes of `e` between its own node and `n`.

Lifting only ever moves to memory around (`liftTo_ancestor`) and never leaves the subtree it climbs
in (`liftTo_home`). It respects enclosure: of two memories, the outer one stays the outer one
(`settle_mono`, `enter_mono`). This is why folding at one node never loses or misplaces what a later
node would have told apart.
-/

namespace Privatization.AliasTree

/-- The nodes from `a` up to `n`, both included, innermost first. -/
def nodePath (t : AliasTree) (a n : AliasNodeId) : List AliasNodeId :=
  (t.nodeForest.path a.index n.index).map AliasNodeId.mk

/-- The coarsest memory around `e` in `n`, for memory of `n`; any other memory is left alone. -/
def settle (t : AliasTree) (n : AliasNodeId) (e : EstimateId) : EstimateId :=
  if t.home e == n then t.outermostIn n e else e

/-- The parent of `e` if it lives in `n`, and `e` otherwise. -/
def enter (t : AliasTree) (n : AliasNodeId) (e : EstimateId) : EstimateId :=
  match t.estimateParent? e with
  | none => e
  | some p => if t.home p == n then p else e

/-- What `e` has become when it is reported at `n`, a node around its own. -/
def liftTo (t : AliasTree) (n : AliasNodeId) (e : EstimateId) : EstimateId :=
  (t.nodePath (t.home e) n).tail.foldl (fun m d => t.settle d (t.enter d m))
    (t.settle (t.home e) e)

variable {t : AliasTree}

/-! ## The coarsest memory in a node -/

theorem outermostIn_of_root {n : AliasNodeId} {e : EstimateId} (h : t.estimateParent? e = none) :
    t.outermostIn n e = e := by
  have hp : t.estimateForest.parent e.index = none := by rw [estimateForest_parent, h]; rfl
  unfold outermostIn
  rw [t.estimateForest.lineage_of_none hp]
  rfl

theorem outermostIn_of_parent {n : AliasNodeId} {e p : EstimateId}
    (h : t.estimateParent? e = some p) :
    t.outermostIn n e = if t.home p = n then t.outermostIn n p else e := by
  unfold outermostIn
  rw [t.estimateForest.lineage_of_some (estimateForest_parent_of h), List.map_cons, List.tail_cons]
  obtain ⟨above, habove⟩ : ∃ above, t.estimateForest.lineage p.index = p.index :: above := by
    cases hp : t.estimateForest.parent p.index with
    | none => exact ⟨[], t.estimateForest.lineage_of_none hp⟩
    | some q => exact ⟨_, t.estimateForest.lineage_of_some hp⟩
  rw [habove, List.map_cons, List.tail_cons]
  rw [List.takeWhile_cons]
  by_cases hn : t.home p = n
  · have hhome : (t.home ⟨p.index⟩ == n) = true := beq_iff_eq.mpr hn
    rw [if_pos hn, if_pos hhome, List.getLastD_cons]
  · have hhome : ¬(t.home ⟨p.index⟩ == n) = true := fun hb => hn (beq_iff_eq.mp hb)
    rw [if_neg hn, if_neg hhome, List.getLastD_nil]

/-- The coarsest memory around memory of `n` lies around it, lives in `n`, and its own parent does
not. -/
theorem outermostIn_spec {n : AliasNodeId} {e : EstimateId} (h : t.home e = n) :
    t.isEstimateAncestor (t.outermostIn n e) e = true ∧ t.home (t.outermostIn n e) = n
      ∧ ∀ p, t.estimateParent? (t.outermostIn n e) = some p → t.home p ≠ n := by
  obtain ⟨i⟩ := e
  induction i using t.estimateForest.lineage_induction with
  | root i hi =>
    have hroot : t.estimateParent? ⟨i⟩ = none := Option.map_eq_none_iff.mp hi
    rw [outermostIn_of_root hroot]
    refine ⟨isEstimateAncestor_refl _, h, fun p hp => ?_⟩
    rw [hroot] at hp
    cases hp
  | step i q hq ih =>
    obtain ⟨p, hp, rfl⟩ := Option.map_eq_some_iff.mp hq
    rw [outermostIn_of_parent (e := ⟨i⟩) hp]
    by_cases hn : t.home p = n
    · rw [if_pos hn]
      obtain ⟨hancestor, hhome, hparent⟩ := ih hn
      exact ⟨isEstimateAncestor_trans hancestor (isEstimateAncestor_parent (e := ⟨i⟩) hp),
        hhome, hparent⟩
    · rw [if_neg hn]
      refine ⟨isEstimateAncestor_refl _, h, fun p' hp' => ?_⟩
      rw [show t.estimateParent? ⟨i⟩ = some p from hp] at hp'
      cases hp'
      exact hn

/-- Memory of `n` whose parent is outside `n` has no other memory of `n` around it. -/
theorem WellFormed.eq_of_outermost (w : t.WellFormed) {n : AliasNodeId} {a b : EstimateId}
    (h : t.isEstimateAncestor a b = true) (ha : t.home a = n) (hb : t.home b = n)
    (houter : ∀ p, t.estimateParent? b = some p → t.home p ≠ n) : a = b := by
  by_cases hne : a = b
  · exact hne
  · obtain ⟨p, hp, hap⟩ := exists_parent_of_ancestor h hne
    -- The parent of `b` lies between `a` and `b`, so it lives in their node.
    have hlow := w.home_ancestor hap
    have hhigh := w.home_parent hp
    rw [ha] at hlow
    rw [hb] at hhigh
    exact absurd (isNodeAncestor_antisymm hhigh hlow) (houter p hp)

/-- Memories of one node, one around the other, have the same coarsest memory. -/
theorem WellFormed.outermostIn_eq (w : t.WellFormed) {n : AliasNodeId} {a e : EstimateId}
    (h : t.isEstimateAncestor a e = true) (ha : t.home a = n) (he : t.home e = n) :
    t.outermostIn n a = t.outermostIn n e := by
  obtain ⟨haa, hah, hap⟩ := outermostIn_spec ha
  obtain ⟨hee, heh, hep⟩ := outermostIn_spec he
  rcases isEstimateAncestor_chain (isEstimateAncestor_trans haa h) hee with hc | hc
  · exact w.eq_of_outermost hc hah heh hep
  · exact (w.eq_of_outermost hc heh hah hap).symm

/-! ## One step -/

theorem settle_of_home {n : AliasNodeId} {e : EstimateId} (h : t.home e = n) :
    t.settle n e = t.outermostIn n e := by
  unfold settle
  rw [if_pos (beq_iff_eq.mpr h)]

theorem settle_of_ne {n : AliasNodeId} {e : EstimateId} (h : t.home e ≠ n) : t.settle n e = e := by
  unfold settle
  rw [if_neg fun hb => h (beq_iff_eq.mp hb)]

theorem settle_ancestor (n : AliasNodeId) (e : EstimateId) :
    t.isEstimateAncestor (t.settle n e) e = true := by
  by_cases h : t.home e = n
  · rw [settle_of_home h]
    exact (outermostIn_spec h).1
  · rw [settle_of_ne h]
    exact isEstimateAncestor_refl e

theorem settle_home (n : AliasNodeId) (e : EstimateId) : t.home (t.settle n e) = t.home e := by
  by_cases h : t.home e = n
  · rw [settle_of_home h, (outermostIn_spec h).2.1, h]
  · rw [settle_of_ne h]

/-- `enter` leads to the parent where that lives in the node that is entered. -/
theorem enter_of_parent {n : AliasNodeId} {e p : EstimateId} (h : t.estimateParent? e = some p)
    (hp : t.home p = n) : t.enter n e = p := by
  unfold enter
  rw [h]
  exact if_pos (beq_iff_eq.mpr hp)

/-- `enter` leaves memory alone whose parent does not live in the node that is entered. -/
theorem enter_of_outside {n : AliasNodeId} {e : EstimateId}
    (h : ∀ p, t.estimateParent? e = some p → t.home p ≠ n) : t.enter n e = e := by
  unfold enter
  cases hp : t.estimateParent? e with
  | none => rfl
  | some p => exact if_neg fun hb => h p hp (beq_iff_eq.mp hb)

/-- The two outcomes of `enter`. -/
theorem enter_cases (n : AliasNodeId) (e : EstimateId) :
    (∃ p, t.estimateParent? e = some p ∧ t.home p = n ∧ t.enter n e = p) ∨ t.enter n e = e := by
  cases hp : t.estimateParent? e with
  | none => exact .inr (enter_of_outside fun p hq => by rw [hp] at hq; cases hq)
  | some p =>
    by_cases hn : t.home p = n
    · exact .inl ⟨p, rfl, hn, enter_of_parent hp hn⟩
    · refine .inr (enter_of_outside fun q hq => ?_)
      rw [hp] at hq
      cases hq
      exact hn

theorem enter_ancestor (n : AliasNodeId) (e : EstimateId) :
    t.isEstimateAncestor (t.enter n e) e = true := by
  rcases enter_cases (t := t) n e with ⟨p, hp, -, heq⟩ | heq
  · rw [heq]
    exact isEstimateAncestor_parent hp
  · rw [heq]
    exact isEstimateAncestor_refl e

/-- What enters a node from a child lives at or below the node. -/
theorem enter_home {c n : AliasNodeId} {e : EstimateId} (hc : t.nodeParent? c = some n)
    (h : t.isNodeAncestor c (t.home e) = true) :
    t.isNodeAncestor n (t.home (t.enter n e)) = true := by
  rcases enter_cases n e with ⟨p, -, hp, heq⟩ | heq
  · rw [heq, hp]
    exact isNodeAncestor_refl n
  · rw [heq]
    exact isNodeAncestor_trans (isNodeAncestor_parent hc) h

/-- Settling respects enclosure of memory at or below the node. -/
theorem WellFormed.settle_mono (w : t.WellFormed) {n : AliasNodeId} {a e : EstimateId}
    (h : t.isEstimateAncestor a e = true) (ha : t.isNodeAncestor n (t.home a) = true) :
    t.isEstimateAncestor (t.settle n a) (t.settle n e) = true := by
  by_cases he : t.home e = n
  · -- What lies between `n` and its own memory `e` lives in `n`, and settles in the same place.
    have hae := w.home_ancestor h
    rw [he] at hae
    have ha' : t.home a = n := isNodeAncestor_antisymm hae ha
    rw [settle_of_home ha', settle_of_home he, w.outermostIn_eq h ha' he]
    exact isEstimateAncestor_refl _
  · rw [settle_of_ne he]
    exact isEstimateAncestor_trans (settle_ancestor n a) h

/-- Entering a node respects enclosure of memory that comes from one of its children. -/
theorem WellFormed.enter_mono (w : t.WellFormed) {c n : AliasNodeId} {a e : EstimateId}
    (hc : t.nodeParent? c = some n) (h : t.isEstimateAncestor a e = true)
    (ha : t.isNodeAncestor c (t.home a) = true) :
    t.isEstimateAncestor (t.enter n a) (t.enter n e) = true := by
  by_cases hne : a = e
  · rw [hne]
    exact isEstimateAncestor_refl _
  · -- The parent of `e` lies inside `a`, hence in the child, so `e` stays what it is.
    obtain ⟨q, hq, haq⟩ := exists_parent_of_ancestor h hne
    have hstay : t.enter n e = e := by
      refine enter_of_outside fun p hp hn => ?_
      rw [hq] at hp
      cases hp
      have hcn := isNodeAncestor_trans ha (w.home_ancestor haq)
      rw [hn, not_isNodeAncestor_of_parent hc] at hcn
      cases hcn
    rw [hstay]
    exact isEstimateAncestor_trans (enter_ancestor n a) h

/-! ## The whole way -/

theorem nodePath_self (n : AliasNodeId) : t.nodePath n n = [n] := by
  unfold nodePath
  rw [t.nodeForest.path_self]
  rfl

theorem nodePath_child {a c n : AliasNodeId} (hc : t.nodeParent? c = some n)
    (h : t.isNodeAncestor c a = true) : t.nodePath a n = t.nodePath a c ++ [n] := by
  unfold nodePath
  rw [t.nodeForest.path_child (nodeForest_parent_of hc) (isNodeAncestor_iff.mp h), List.map_append]
  rfl

theorem nodePath_ne_nil {a n : AliasNodeId} (h : t.isNodeAncestor n a = true) :
    t.nodePath a n ≠ [] := by
  unfold nodePath
  rw [ne_eq, List.map_eq_nil_iff]
  exact t.nodeForest.path_ne_nil (isNodeAncestor_iff.mp h)

theorem mem_nodePath {a d n : AliasNodeId} :
    d ∈ t.nodePath a n ↔ t.isNodeAncestor d a = true ∧ t.isNodeAncestor n d = true := by
  rw [isNodeAncestor_iff, isNodeAncestor_iff, ← t.nodeForest.mem_path]
  constructor
  · intro h
    obtain ⟨i, hi, rfl⟩ := List.mem_map.mp h
    exact hi
  · intro h
    exact List.mem_map.mpr ⟨d.index, h, rfl⟩

/-- In its own node, memory is lifted to the coarsest memory of the node. -/
theorem liftTo_of_home {n : AliasNodeId} {e : EstimateId} (h : t.home e = n) :
    t.liftTo n e = t.settle n e := by
  unfold liftTo
  rw [h, nodePath_self]
  rfl

/-- Climbing from a child to its parent node enters the parent and settles there. -/
theorem liftTo_of_child {c n : AliasNodeId} {e : EstimateId} (hc : t.nodeParent? c = some n)
    (h : t.isNodeAncestor c (t.home e) = true) :
    t.liftTo n e = t.settle n (t.enter n (t.liftTo c e)) := by
  unfold liftTo
  rw [nodePath_child hc h, List.tail_append_of_ne_nil (nodePath_ne_nil h), List.foldl_append]
  rfl

/-- Lifted memory lies around the memory it was lifted from. -/
theorem liftTo_ancestor (n : AliasNodeId) (e : EstimateId) :
    t.isEstimateAncestor (t.liftTo n e) e = true := by
  unfold liftTo
  have hfold (path : List AliasNodeId) (m : EstimateId) (h : t.isEstimateAncestor m e = true) :
      t.isEstimateAncestor (path.foldl (fun m d => t.settle d (t.enter d m)) m) e = true := by
    induction path generalizing m with
    | nil => exact h
    | cons d path ih =>
      have hentered := isEstimateAncestor_trans (enter_ancestor d m) h
      exact ih _ (isEstimateAncestor_trans (settle_ancestor d _) hentered)
  exact hfold _ _ (settle_ancestor _ e)

/-- Memory that climbs in a subtree stays in it. -/
theorem liftTo_home {n : AliasNodeId} {e : EstimateId}
    (h : t.isNodeAncestor n (t.home e) = true) :
    t.isNodeAncestor n (t.home (t.liftTo n e)) = true := by
  by_cases hn : n = t.home e
  · rw [liftTo_of_home hn.symm, settle_home]
    exact h
  · obtain ⟨c, hc, hce⟩ := exists_child_of_ancestor h hn
    rw [liftTo_of_child hc hce, settle_home]
    exact enter_home hc (liftTo_home hce)
termination_by t.nodes.size - n.index
decreasing_by
  have hlt := t.nodeForest.parent_lt (nodeForest_parent_of hc)
  have := node_lt_of_parent hc
  omega

/-- Climbing respects enclosure: what lies inside a memory at a node is found inside it at every
node around. -/
theorem WellFormed.liftTo_mono (w : t.WellFormed) {d n : AliasNodeId} {a e : EstimateId}
    (hd : t.isNodeAncestor n d = true) (ha : t.isNodeAncestor d (t.home a) = true)
    (he : t.isNodeAncestor d (t.home e) = true)
    (h : t.isEstimateAncestor (t.liftTo d a) (t.liftTo d e) = true) :
    t.isEstimateAncestor (t.liftTo n a) (t.liftTo n e) = true := by
  by_cases hn : n = d
  · rw [hn]
    exact h
  · obtain ⟨c, hc, hcd⟩ := exists_child_of_ancestor hd hn
    have hca := isNodeAncestor_trans hcd ha
    have hce := isNodeAncestor_trans hcd he
    have hbelow := w.liftTo_mono hcd ha he h
    have hentered := w.enter_mono hc hbelow (liftTo_home hca)
    rw [liftTo_of_child hc hca, liftTo_of_child hc hce]
    exact w.settle_mono hentered (enter_home hc (liftTo_home hca))
termination_by t.nodes.size - n.index
decreasing_by
  have hlt := t.nodeForest.parent_lt (nodeForest_parent_of hc)
  have := node_lt_of_parent hc
  omega

end Privatization.AliasTree
