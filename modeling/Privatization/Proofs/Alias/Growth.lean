import Privatization.Alias.Walk
import Privatization.Proofs.Collection.Folds
import Privatization.Proofs.Forest.Ancestry

/-!
# How alias trees grow

An alias tree is *grown* when it comes from the tree with a root alone by additions that succeeded.
Growing keeps `WellFormed`: every node but the root has a parent, every estimate memory lives in a
node of the tree and every unknown access is attributed to one, and a part of a memory lives in the
node of the whole or below it. The last fact ties the two hierarchies together and is what lets
memory travel towards the root.
-/

namespace Privatization

namespace AliasTree

/-- Trees that additions build. An addition that is refused leaves no tree behind. -/
inductive Grown : AliasTree → Prop where
  | empty : Grown ∅
  | addNode {t t' : AliasTree} {parent n : AliasNodeId} {kind : AliasNodeKind}
      (grown : Grown t) (added : t.addNode parent kind = .ok (t', n)) : Grown t'
  | addEstimate {t t' : AliasTree} {node : AliasNodeId} {pointers : List ValueId}
      {size : Option Nat} {offset : Nat} {parent : Option EstimateId} {e : EstimateId}
      (grown : Grown t) (added : t.addEstimate node pointers size offset parent = .ok (t', e)) :
      Grown t'
  | addUnknown {t t' : AliasTree} {node : AliasNodeId} {inst : InstId}
      (grown : Grown t) (added : t.addUnknown node inst = .ok t') : Grown t'

/-- What every grown tree satisfies. -/
structure WellFormed (t : AliasTree) : Prop where
  rooted : 0 < t.nodes.size
  inner : ∀ (i : Nat) (n : AliasNode), t.nodes[i]? = some n → i ≠ 0 → ∃ p, n.parent = some p
  housed : ∀ (i : Nat) (e : Estimate), t.estimates[i]? = some e → e.node.index < t.nodes.size
  nested : ∀ (i : Nat) (e outer : Estimate) (p : EstimateId), t.estimates[i]? = some e →
    e.parent = some p → t.estimate? p = some outer → t.isNodeAncestor outer.node e.node = true
  attributed : ∀ a ∈ t.attributions, a.2.index < t.nodes.size

/-! ## What a successful addition did -/

/-- A node that is added is the next one: an inner node below a node of the tree. -/
theorem addNode_eq_ok {t t' : AliasTree} {parent n : AliasNodeId} {kind : AliasNodeKind}
    (h : t.addNode parent kind = .ok (t', n)) :
    parent.index < t.nodes.size ∧ kind ≠ .top ∧ n = ⟨t.nodes.size⟩
      ∧ t'.nodes = t.nodes.push ⟨kind, some parent⟩ ∧ t'.estimates = t.estimates
      ∧ t'.attributions = t.attributions := by
  unfold addNode at h
  split at h
  next hp =>
    split at h
    · cases h
    next hk =>
      cases h
      exact ⟨hp, hk, rfl, rfl, rfl, rfl⟩
  next => cases h

/-- A memory that is added is the next one, and its node and parent were checked. -/
theorem addEstimate_eq_ok {t t' : AliasTree} {node : AliasNodeId} {pointers : List ValueId}
    {size : Option Nat} {offset : Nat} {parent : Option EstimateId} {e : EstimateId}
    (h : t.addEstimate node pointers size offset parent = .ok (t', e)) :
    node.index < t.nodes.size ∧ t.checkParent node parent = .ok () ∧ e = ⟨t.estimates.size⟩
      ∧ t'.nodes = t.nodes ∧ t'.attributions = t.attributions
      ∧ ∃ front others, pointers = front :: others
        ∧ t'.estimates = t.estimates.push { front, others, size, offset, parent, node } := by
  unfold addEstimate at h
  split at h
  next hn =>
    split at h
    · cases h
    next front others =>
      split at h
      · cases h
      next hc =>
        cases h
        exact ⟨hn, hc, rfl, rfl, rfl, front, others, rfl, rfl⟩
  next => cases h

/-- An unknown access that is added is attributed to a node of the tree. -/
theorem addUnknown_eq_ok {t t' : AliasTree} {node : AliasNodeId} {inst : InstId}
    (h : t.addUnknown node inst = .ok t') :
    node.index < t.nodes.size ∧ t'.nodes = t.nodes ∧ t'.estimates = t.estimates
      ∧ t'.attributions = t.attributions ++ [(inst, node)] := by
  unfold addUnknown at h
  split at h
  next hn =>
    cases h
    exact ⟨hn, rfl, rfl, rfl⟩
  next => cases h

/-- A parent that passes the check exists and lives around the new memory. -/
theorem checkParent_eq_ok {t : AliasTree} {node : AliasNodeId} {p : EstimateId}
    (h : t.checkParent node (some p) = .ok ()) :
    ∃ outer, t.estimate? p = some outer ∧ t.isNodeAncestor outer.node node = true := by
  cases ho : t.estimate? p with
  | none => simp [checkParent, ho] at h
  | some outer =>
    by_cases ha : t.isNodeAncestor outer.node node = true
    · exact ⟨outer, rfl, ha⟩
    · simp [checkParent, ho, ha] at h

/-! ## Enclosure of nodes while the tree grows

Nodes are only ever added at the end, and ancestors have smaller numbers, so what lies around a
node that is already there never changes. -/

/-- What lies around a node is told by the nodes up to it. -/
theorem isNodeAncestor_congr {t t' : AliasTree} {a n : AliasNodeId}
    (h : ∀ j, j ≤ n.index → t'.nodes[j]? = t.nodes[j]?) :
    t'.isNodeAncestor a n = t.isNodeAncestor a n := by
  have hl : t'.nodeForest.lineage n.index = t.nodeForest.lineage n.index := by
    refine Forest.lineage_congr fun j hj => ?_
    show (t'.nodes[j]?.bind (·.parent)).map (·.index) = (t.nodes[j]?.bind (·.parent)).map (·.index)
    rw [h j hj]
  unfold isNodeAncestor Forest.isAncestor
  rw [hl]

/-- A new node lies around none that was there. -/
theorem isNodeAncestor_of_addNode {t t' : AliasTree} {parent m a n : AliasNodeId}
    {kind : AliasNodeKind} (h : t.addNode parent kind = .ok (t', m))
    (hn : n.index < t.nodes.size) : t'.isNodeAncestor a n = t.isNodeAncestor a n := by
  obtain ⟨-, -, -, hnodes, -, -⟩ := addNode_eq_ok h
  refine isNodeAncestor_congr fun j hj => ?_
  have hlt : j < t.nodes.size := Nat.lt_of_le_of_lt hj hn
  rw [hnodes, Array.getElem?_push, if_neg (by omega)]

/-! ## Well-formedness is kept -/

/-- The tree with a root alone is well formed. -/
theorem WellFormed.empty : WellFormed ∅ where
  rooted := Nat.one_pos
  inner i n hn hi := by
    obtain ⟨hlt, -⟩ := Array.getElem?_eq_some_iff.mp hn
    exact absurd (Nat.lt_one_iff.mp hlt) hi
  housed i e he := by
    obtain ⟨hlt, -⟩ := Array.getElem?_eq_some_iff.mp he
    exact absurd hlt (Nat.not_lt_zero i)
  nested i e outer p he := by
    obtain ⟨hlt, -⟩ := Array.getElem?_eq_some_iff.mp he
    exact absurd hlt (Nat.not_lt_zero i)
  attributed a ha := by cases ha

/-- Another node keeps the tree well formed. -/
theorem WellFormed.addNode {t t' : AliasTree} {parent n : AliasNodeId} {kind : AliasNodeKind}
    (w : t.WellFormed) (h : t.addNode parent kind = .ok (t', n)) : t'.WellFormed := by
  obtain ⟨-, -, -, hnodes, hestimates, hattributions⟩ := addNode_eq_ok h
  have hsize : t'.nodes.size = t.nodes.size + 1 := by rw [hnodes, Array.size_push]
  constructor
  case rooted => omega
  case inner =>
    intro i m hm hi
    rw [hnodes, Array.getElem?_push] at hm
    split at hm
    · cases hm
      exact ⟨parent, rfl⟩
    · exact w.inner i m hm hi
  case housed =>
    intro i e he
    rw [hestimates] at he
    have := w.housed i e he
    omega
  -- The new node is above none of the old ones, so their ancestry is as before.
  case nested =>
    intro i e outer p he hp ho
    unfold estimate? at ho
    rw [hestimates] at he ho
    rw [isNodeAncestor_of_addNode h (w.housed i e he)]
    exact w.nested i e outer p he hp ho
  case attributed =>
    intro a ha
    rw [hattributions] at ha
    have := w.attributed a ha
    omega

/-- Another memory keeps a tree well formed: its parent was checked to live around it. -/
theorem WellFormed.addEstimate {t t' : AliasTree} {node : AliasNodeId} {pointers : List ValueId}
    {size : Option Nat} {offset : Nat} {parent : Option EstimateId} {m : EstimateId}
    (w : t.WellFormed) (h : t.addEstimate node pointers size offset parent = .ok (t', m)) :
    t'.WellFormed := by
  obtain ⟨hnode, hcheck, -, hnodes, hattributions, front, others, -, hestimates⟩ :=
    addEstimate_eq_ok h
  have hancestor (a n : AliasNodeId) : t'.isNodeAncestor a n = t.isNodeAncestor a n :=
    isNodeAncestor_congr fun j _ => by rw [hnodes]
  constructor
  case rooted => rw [hnodes]; exact w.rooted
  case inner => rw [hnodes]; exact w.inner
  case housed =>
    intro i e he
    rw [hestimates, Array.getElem?_push] at he
    rw [hnodes]
    split at he
    · cases he
      exact hnode
    · exact w.housed i e he
  case nested =>
    intro i e outer p he hp ho
    -- The parent is older than its part, so it is found where it was before the addition.
    have hpi : p.index < i := t'.estimate_parent_lt i e p he hp
    have hi : i < t'.estimates.size := (Array.getElem?_eq_some_iff.mp he).1
    rw [hestimates, Array.size_push] at hi
    have hold : t.estimate? p = some outer := by
      unfold estimate? at ho ⊢
      rw [hestimates, Array.getElem?_push, if_neg (by omega)] at ho
      exact ho
    rw [hancestor]
    rw [hestimates, Array.getElem?_push] at he
    split at he
    · cases he
      subst hp
      obtain ⟨found, hfound, hin⟩ := checkParent_eq_ok hcheck
      rw [hold] at hfound
      cases hfound
      exact hin
    · exact w.nested i e outer p he hp hold
  case attributed => rw [hattributions, hnodes]; exact w.attributed

/-- Another unknown access keeps a tree well formed. -/
theorem WellFormed.addUnknown {t t' : AliasTree} {node : AliasNodeId} {inst : InstId}
    (w : t.WellFormed) (h : t.addUnknown node inst = .ok t') : t'.WellFormed := by
  obtain ⟨hnode, hnodes, hestimates, hattributions⟩ := addUnknown_eq_ok h
  have hancestor (a n : AliasNodeId) : t'.isNodeAncestor a n = t.isNodeAncestor a n :=
    isNodeAncestor_congr fun j _ => by rw [hnodes]
  constructor
  case rooted => rw [hnodes]; exact w.rooted
  case inner => rw [hnodes]; exact w.inner
  case housed => rw [hestimates, hnodes]; exact w.housed
  case nested =>
    intro i e outer p he hp ho
    unfold estimate? at ho
    rw [hestimates] at he ho
    rw [hancestor]
    exact w.nested i e outer p he hp ho
  case attributed =>
    intro a ha
    rw [hattributions, List.mem_append, List.mem_singleton] at ha
    rw [hnodes]
    rcases ha with ha | rfl
    · exact w.attributed a ha
    · exact hnode

/-- Every grown tree is well formed, by induction on how it grew. -/
theorem Grown.wellFormed {t : AliasTree} (h : t.Grown) : t.WellFormed := by
  induction h with
  | empty => exact .empty
  | addNode _ added ih => exact ih.addNode added
  | addEstimate _ added ih => exact ih.addEstimate added
  | addUnknown _ added ih => exact ih.addUnknown added

/-! ## Growing by a list of additions -/

/-- An addition to an alias tree. -/
inductive Addition where
  | node (parent : AliasNodeId) (kind : AliasNodeKind)
  | estimate (node : AliasNodeId) (pointers : List ValueId) (size : Option Nat) (offset : Nat)
    (parent : Option EstimateId)
  | unknown (node : AliasNodeId) (inst : InstId)

/-- Makes an addition. -/
def add (t : AliasTree) : Addition → Except ModelError AliasTree
  | .node parent kind => (t.addNode parent kind).map Prod.fst
  | .estimate node pointers size offset parent =>
    (t.addEstimate node pointers size offset parent).map Prod.fst
  | .unknown node inst => t.addUnknown node inst

/-- The tree after an addition. One that is refused changes nothing. -/
def grow (t : AliasTree) (a : Addition) : AliasTree := (t.add a).toOption.getD t

/-- The tree that additions grow from the root alone. -/
def ofAdditions (additions : List Addition) : AliasTree := additions.foldl grow ∅

/-- An addition that succeeds grows the tree. -/
theorem Grown.add {t t' : AliasTree} {a : Addition} (h : t.Grown) (added : t.add a = .ok t') :
    t'.Grown := by
  cases a with
  | node parent kind =>
    obtain ⟨r, hr, rfl⟩ := map_eq_ok added
    exact h.addNode hr
  | estimate node pointers size offset parent =>
    obtain ⟨r, hr, rfl⟩ := map_eq_ok added
    exact h.addEstimate hr
  | unknown node inst => exact h.addUnknown added

/-- An addition, refused or not, leaves a grown tree. -/
theorem Grown.grow {t : AliasTree} (h : t.Grown) (a : Addition) : (t.grow a).Grown := by
  unfold AliasTree.grow
  cases hadded : t.add a with
  | error e => exact h
  | ok t' => exact h.add hadded

/-- Whatever is added, and whatever is refused, the tree is a grown one. -/
theorem grown_ofAdditions (additions : List Addition) : (ofAdditions additions).Grown := by
  have hfold (t : AliasTree) (h : t.Grown) : (additions.foldl grow t).Grown := by
    induction additions generalizing t with
    | nil => exact h
    | cons a additions ih => exact ih (t.grow a) (h.grow a)
  exact hfold ∅ .empty

end AliasTree

end Privatization
