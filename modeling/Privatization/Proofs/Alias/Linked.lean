import Privatization.Proofs.Alias.Contents
import Privatization.Proofs.Alias.Records

/-!
# The records of an alias tree are linked

`records` writes a tree with all that its nodes and memories contain. An addition to the records of
a tree gives the records of the tree with the addition (`run_make_records`), so records that were
built are those of a tree. They are `Linked`: upward and downward links say the same, and each node
and each memory is listed once and in one place.
-/

namespace Privatization

namespace AliasTree

namespace Records

/-- What the records of a node and of a memory have to say about each other. -/
structure Linked (r : Records) : Prop where
  rooted : 0 < r.nodes.size
  /-- Number 0 is the only top node. -/
  top_iff : ∀ (i : Nat) (n : NodeRecord), r.nodes[i]? = some n → (n.kind = .top ↔ i = 0)
  /-- It is also the only node without parent. -/
  parentless_iff : ∀ (i : Nat) (n : NodeRecord), r.nodes[i]? = some n → (n.parent = none ↔ i = 0)
  node_parent_lt : ∀ (i : Nat) (n : NodeRecord) (p : AliasNodeId), r.nodes[i]? = some n →
    n.parent = some p → p.index < i
  /-- A node lists its children once each, and nothing else. -/
  node_children : ∀ (j : Nat) (m : NodeRecord) (c : AliasNodeId), r.nodes[j]? = some m →
    m.children.count c = if ((r.nodes[c.index]?).bind (·.parent)) = some ⟨j⟩ then 1 else 0
  /-- A node lists the memory that lives in it once each, and nothing else. -/
  node_estimates : ∀ (j : Nat) (m : NodeRecord) (e : EstimateId), r.nodes[j]? = some m →
    m.estimates.count e = if (r.estimates[e.index]?).map (·.node) = some ⟨j⟩ then 1 else 0
  pointers_ne_nil : ∀ (i : Nat) (e : EstimateRecord), r.estimates[i]? = some e → e.pointers ≠ []
  housed : ∀ (i : Nat) (e : EstimateRecord), r.estimates[i]? = some e →
    e.node.index < r.nodes.size
  estimate_parent_lt : ∀ (i : Nat) (e : EstimateRecord) (p : EstimateId),
    r.estimates[i]? = some e → e.parent = some p → p.index < i
  /-- A memory lists its parts once each, and nothing else. -/
  estimate_children : ∀ (j : Nat) (m : EstimateRecord) (c : EstimateId), r.estimates[j]? = some m →
    m.children.count c = if ((r.estimates[c.index]?).bind (·.parent)) = some ⟨j⟩ then 1 else 0
  /-- A part lives in the node of the whole or below it. -/
  nested : ∀ (i : Nat) (e outer : EstimateRecord) (p : EstimateId), r.estimates[i]? = some e →
    e.parent = some p → r.estimates[p.index]? = some outer →
    r.isNodeAncestor outer.node e.node = true

end Records

/-! ## The records of a tree -/

section View

variable (t : AliasTree)

/-- The record of a node, with all that lives in it or is attributed to it. -/
def nodeRecord (i : Nat) (n : AliasNode) : NodeRecord where
  kind := n.kind
  parent := n.parent
  children := t.nodeChildren ⟨i⟩
  estimates := t.nodeEstimates ⟨i⟩
  unknowns := t.nodeUnknowns ⟨i⟩

/-- The record of a memory, with its parts. -/
def estimateRecord (i : Nat) (e : Estimate) : EstimateRecord where
  pointers := e.pointers
  size := e.size
  offset := e.offset
  parent := e.parent
  children := t.estimateChildren ⟨i⟩
  node := e.node

/-- The tree with everything that lies in a node or a memory listed there. -/
def records : Records where
  nodes := t.nodes.mapIdx t.nodeRecord
  estimates := t.estimates.mapIdx t.estimateRecord
  unknowns := t.attributions.foldl (fun m a => m.insert a.1 a.2) ∅

end View

variable {t t' : AliasTree}

@[simp] theorem size_records_nodes : t.records.nodes.size = t.nodes.size := Array.size_mapIdx

@[simp] theorem size_records_estimates : t.records.estimates.size = t.estimates.size :=
  Array.size_mapIdx

/-- A record stands under the number of its node. -/
theorem records_nodes_get? (i : Nat) :
    t.records.nodes[i]? = t.nodes[i]?.map (t.nodeRecord i) :=
  Array.getElem?_mapIdx

theorem records_estimates_get? (i : Nat) :
    t.records.estimates[i]? = t.estimates[i]?.map (t.estimateRecord i) :=
  Array.getElem?_mapIdx

/-- The parent in a record is that of the tree. -/
theorem records_nodeParent? (n : AliasNodeId) :
    (t.records.nodes[n.index]?).bind (·.parent) = t.nodeParent? n := by
  rw [records_nodes_get?, Option.bind_map]
  rfl

/-- The parent in the record of a memory is that of the tree. -/
theorem records_estimateParent? (e : EstimateId) :
    (t.records.estimates[e.index]?).bind (·.parent) = t.estimateParent? e := by
  rw [records_estimates_get?, Option.bind_map]
  rfl

/-- The node in the record of a memory is its home. -/
theorem records_home? (e : EstimateId) :
    (t.records.estimates[e.index]?).map (·.node) = (t.estimate? e).map (·.node) := by
  rw [records_estimates_get?, Option.map_map]
  rfl

/-- What is written for memory depends on the memory of the tree only. -/
theorem estimateRecord_congr (h : t'.estimates = t.estimates) :
    t'.estimateRecord = t.estimateRecord := by
  funext i e
  unfold estimateRecord
  rw [estimateChildren_congr h]

theorem eq_node_iff {n : AliasNodeId} {i : Nat} : n = ⟨i⟩ ↔ n.index = i :=
  ⟨congrArg AliasNodeId.index, congrArg AliasNodeId.mk⟩

/-- The empty tree has the record of its root. -/
theorem records_empty : records ∅ = .root := rfl

/-! ### What an addition does to the records -/

/-- A new node comes behind the others, and its parent lists it. -/
theorem WellFormed.records_addNode (w : t.WellFormed) {parent n : AliasNodeId}
    {kind : AliasNodeKind} (h : t.addNode parent kind = .ok (t', n)) :
    t'.records = Records.listChild parent n (Records.pushNode
      { kind, parent := some parent, children := [], estimates := [], unknowns := [] }
      t.records) := by
  obtain ⟨-, -, -, hnodes, hestimates, hattributions⟩ := addNode_eq_ok h
  -- The new number has no child, memory or unknown access yet.
  have hnew : t.nodeRecord t.nodes.size ⟨kind, some parent⟩ = ⟨kind, some parent, [], [], []⟩ := by
    unfold nodeRecord
    rw [nodeChildren_eq_nil, w.nodeEstimates_eq_nil, w.nodeUnknowns_eq_nil] <;>
      exact Nat.le_refl _
  -- Of the old records, that of the parent changes, in its last child only.
  have hlists (i : Nat) (m : AliasNode) : t'.nodeRecord i m
      = if parent.index = i then .addChild n (t.nodeRecord i m) else t.nodeRecord i m := by
    unfold nodeRecord NodeRecord.addChild
    rw [nodeChildren_addNode h, nodeEstimates_congr hestimates, nodeUnknowns_congr hattributions]
    simp only [eq_node_iff]
    split
    · rfl
    · rw [List.append_nil]
  unfold records Records.listChild Records.pushNode
  rw [hnodes, mapIdx_eq_modify hlists, Array.mapIdx_push, hnew, hestimates,
    estimateRecord_congr hestimates, hattributions]

/-- The records after memory was listed at its parent, if it has one. -/
def Records.joined (parent : Option EstimateId) (e : EstimateId) (r : Records) : Records :=
  parent.elim r fun p => listPart p e r

/-- New memory comes behind the others, and the memory around it and its node list it. -/
theorem records_addEstimate {node : AliasNodeId} {pointers : List ValueId} {size : Option Nat}
    {offset : Nat} {parent : Option EstimateId} {e : EstimateId}
    (h : t.addEstimate node pointers size offset parent = .ok (t', e)) :
    t'.records = Records.listEstimate node e (Records.pushEstimate
      { pointers, size, offset, parent, children := [], node }
      (t.records.joined parent e)) := by
  obtain ⟨-, hcheck, rfl, hnodes, hattributions, front, others, rfl, hestimates⟩ :=
    addEstimate_eq_ok h
  have hnew : t'.estimateRecord t.estimates.size ⟨front, others, size, offset, parent, node⟩
      = ⟨front :: others, size, offset, parent, [], node⟩ := by
    unfold estimateRecord
    rw [estimateChildren_addEstimate h, if_neg, List.append_nil,
      estimateChildren_eq_nil (e := ⟨t.estimates.size⟩) (Nat.le_refl _)]
    · rfl
    · intro hp
      exact Nat.lt_irrefl _ (t.lt_of_checkParent hcheck hp)
  -- Two lists grow: that of the parent, if there is one, and that of the node.
  have hparts (i : Nat) (m : Estimate) : t'.estimateRecord i m
      = if parent = some ⟨i⟩ then .addPart ⟨t.estimates.size⟩ (t.estimateRecord i m)
        else t.estimateRecord i m := by
    unfold estimateRecord EstimateRecord.addPart
    rw [estimateChildren_addEstimate h]
    split
    · rfl
    · rw [List.append_nil]
  have hlists (i : Nat) (n : AliasNode) : t'.nodeRecord i n
      = if node.index = i then .addEstimate ⟨t.estimates.size⟩ (t.nodeRecord i n)
        else t.nodeRecord i n := by
    unfold nodeRecord NodeRecord.addEstimate
    rw [nodeChildren_congr hnodes, nodeEstimates_addEstimate h, nodeUnknowns_congr hattributions]
    simp only [eq_node_iff]
    split
    · rfl
    · rw [List.append_nil]
  unfold records
  rw [hnodes, mapIdx_eq_modify hlists, hestimates, Array.mapIdx_push, hnew, hattributions]
  cases parent with
  | none =>
    have hsame : t'.estimateRecord = t.estimateRecord := funext fun i => funext (hparts i)
    rw [hsame]
    rfl
  | some p =>
    have hparts (i : Nat) (m : Estimate) : t'.estimateRecord i m
        = if p.index = i then .addPart ⟨t.estimates.size⟩ (t.estimateRecord i m)
          else t.estimateRecord i m := by
      rw [hparts]
      exact if_congr
        (Option.some_inj.trans ⟨congrArg EstimateId.index, congrArg EstimateId.mk⟩) rfl rfl
    rw [mapIdx_eq_modify hparts]
    rfl

/-- An unknown access is listed at its node and found there by its instruction. -/
theorem records_addUnknown {node : AliasNodeId} {inst : InstId}
    (h : t.addUnknown node inst = .ok t') :
    t'.records = Records.listUnknown node inst t.records := by
  obtain ⟨-, hnodes, hestimates, hattributions⟩ := addUnknown_eq_ok h
  have hlists (i : Nat) (n : AliasNode) : t'.nodeRecord i n
      = if node.index = i then .addUnknown inst (t.nodeRecord i n) else t.nodeRecord i n := by
    unfold nodeRecord NodeRecord.addUnknown
    rw [nodeChildren_congr hnodes, nodeEstimates_congr hestimates, nodeUnknowns_addUnknown h]
    simp only [eq_node_iff]
    split
    · rfl
    · rw [List.append_nil]
  unfold records Records.listUnknown
  rw [hnodes, mapIdx_eq_modify hlists, hestimates, estimateRecord_congr hestimates,
    hattributions, List.foldl_append]
  rfl

/-! ## Climbing over stored parents -/

/-- A climb takes at most as many turns as there are numbers below the node it starts at. -/
theorem climbs_records {a n : AliasNodeId} {turns : Nat} (h : n.index < turns) :
    t.records.climbs a turns n = t.isNodeAncestor a n := by
  induction turns generalizing n with
  | zero => exact absurd h (Nat.not_lt_zero _)
  | succ turns ih =>
    have hself : n = a ↔ a.index = n.index := eq_comm.trans eq_node_iff
    rw [Records.climbs, records_nodeParent?, Bool.eq_iff_iff, Bool.or_eq_true, beq_iff_eq,
      isNodeAncestor_iff]
    cases hp : t.nodeParent? n with
    | none =>
      have hnone : t.nodeForest.parent n.index = none := by rw [nodeForest_parent, hp]; rfl
      rw [t.nodeForest.mem_lineage_of_none hnone, Option.any_none]
      simp only [Bool.false_eq_true, or_false]
      exact hself
    | some p =>
      have hsome := nodeForest_parent_of hp
      have hlt := t.nodeForest.parent_lt hsome
      rw [t.nodeForest.mem_lineage_of_some hsome, Option.any_some, ih (by omega),
        isNodeAncestor_iff]
      exact or_congr_left hself

/-- Climbing over the records answers as the tree does. -/
theorem isNodeAncestor_records {a n : AliasNodeId} (h : n.index < t.nodes.size) :
    t.records.isNodeAncestor a n = t.isNodeAncestor a n :=
  climbs_records (by rwa [size_records_nodes])

/-! ## Additions to the records of a tree -/

namespace Records

/-- A node is added to the records as to the tree, or refused with the same error and nothing
changed. -/
theorem run_addNode_records (w : t.WellFormed) {parent : AliasNodeId} {kind : AliasNodeKind} :
    (addNode parent kind).run t.records =
      match t.addNode parent kind with
      | .ok (t', n) => .ok n t'.records
      | .error e => .error e t.records := by
  rw [run_addNode, size_records_nodes]
  cases h : t.addNode parent kind with
  | ok q =>
    obtain ⟨t', n⟩ := q
    obtain ⟨hparent, hkind, rfl, -⟩ := addNode_eq_ok h
    rw [if_pos hparent, if_pos hkind]
    dsimp only
    rw [w.records_addNode h]
  | error e =>
    unfold AliasTree.addNode at h
    split at h
    next hparent =>
      split at h
      next hkind => cases h; rw [if_pos hparent, if_neg (not_not.mpr hkind)]
      next => cases h
    next hparent => cases h; rw [if_neg hparent]

/-- The parent of new memory is checked against the records as against the tree, and lists it if it
will do. -/
theorem run_joinParent_records {node : AliasNodeId} {e : EstimateId} {parent : Option EstimateId}
    (hnode : node.index < t.nodes.size) :
    (joinParent node e parent).run t.records =
      match t.checkParent node parent with
      | .ok () => .ok () (t.records.joined parent e)
      | .error err => .error err t.records := by
  cases parent with
  | none => rfl
  | some p =>
    rw [run_joinParent, records_estimates_get?, checkParent, estimate?]
    cases t.estimates[p.index]? with
    | none => rfl
    | some outer =>
      -- The check climbs from the new home, which is a node of the tree.
      show (if t.records.isNodeAncestor outer.node node = true then _ else _) = _
      rw [isNodeAncestor_records hnode]
      dsimp only
      split <;> rfl

/-- Memory is added to the records as to the tree, or refused with the same error. -/
theorem run_addEstimate_records {node : AliasNodeId} {pointers : List ValueId} {size : Option Nat}
    {offset : Nat} {parent : Option EstimateId} :
    (addEstimate node pointers size offset parent).run t.records =
      match t.addEstimate node pointers size offset parent with
      | .ok (t', e) => .ok e t'.records
      | .error err => .error err t.records := by
  rw [run_addEstimate, size_records_nodes, size_records_estimates]
  cases h : t.addEstimate node pointers size offset parent with
  | ok q =>
    obtain ⟨t', e⟩ := q
    obtain ⟨hnode, hcheck, rfl, -, -, front, others, rfl, -⟩ := addEstimate_eq_ok h
    rw [if_pos hnode, if_pos (List.cons_ne_nil front others), run_joinParent_records hnode, hcheck]
    dsimp only
    rw [records_addEstimate h]
  | error err =>
    -- A refusal: the checks are made in the same order on both sides.
    unfold AliasTree.addEstimate at h
    split at h
    next hnode =>
      rw [if_pos hnode]
      split at h
      · cases h
        rfl
      next front others =>
        rw [if_pos (List.cons_ne_nil front others), run_joinParent_records hnode]
        split at h
        next e hcheck => cases h; rw [hcheck]
        next => cases h
    next hnode => cases h; rw [if_neg hnode]

/-- An unknown access is added to the records as to the tree. -/
theorem run_addUnknown_records {node : AliasNodeId} {inst : InstId} :
    (addUnknown node inst).run t.records =
      match t.addUnknown node inst with
      | .ok t' => .ok () t'.records
      | .error err => .error err t.records := by
  rw [run_addUnknown, size_records_nodes]
  cases h : t.addUnknown node inst with
  | ok t' =>
    rw [if_pos (addUnknown_eq_ok h).1]
    dsimp only
    rw [records_addUnknown h]
  | error err =>
    unfold AliasTree.addUnknown at h
    split at h
    next => cases h
    next hnode => cases h; rw [if_neg hnode]

/-- Made on the records of a tree, an addition gives those of the tree with the addition, or is
refused for the same reason. -/
theorem run_make_records (w : t.WellFormed) (a : Addition) :
    (make a).run t.records =
      match t.add a with
      | .ok t' => .ok () t'.records
      | .error e => .error e t.records := by
  cases a with
  | node parent kind =>
    refine run_discard.trans ?_
    rw [run_addNode_records w, AliasTree.add]
    cases t.addNode parent kind <;> rfl
  | estimate node pointers size offset parent =>
    refine run_discard.trans ?_
    rw [run_addEstimate_records, AliasTree.add]
    cases t.addEstimate node pointers size offset parent <;> rfl
  | unknown node inst => exact run_addUnknown_records

/-- So one addition after another, refused or not, keeps the records those of the tree. -/
theorem after_records (w : t.WellFormed) (a : Addition) :
    t.records.after a = (t.grow a).records := by
  unfold after grow
  rw [run_make_records w]
  cases t.add a <;> rfl

/-- Building record by record gives the records of the tree. -/
theorem built_eq (additions : List Addition) :
    built additions = (ofAdditions additions).records := by
  have hfold (t : AliasTree) (grown : t.Grown) :
      additions.foldl after t.records = (additions.foldl grow t).records := by
    induction additions generalizing t with
    | nil => rfl
    | cons a additions ih =>
      rw [List.foldl_cons, List.foldl_cons, after_records grown.wellFormed a]
      exact ih (t.grow a) (grown.grow a)
  rw [built, ← records_empty]
  exact hfold ∅ .empty

end Records

/-! ## Links -/

/-- Number 0 is the only top node, for no other may be added. -/
theorem Grown.kind_eq_top_iff (grown : t.Grown) {i : Nat} {n : AliasNode}
    (h : t.nodes[i]? = some n) : n.kind = .top ↔ i = 0 := by
  induction grown generalizing i n with
  | empty =>
    obtain ⟨hi, rfl⟩ := Array.getElem?_eq_some_iff.mp h
    obtain rfl : i = 0 := Nat.lt_one_iff.mp hi
    exact iff_of_true rfl rfl
  | addNode grown added ih =>
    obtain ⟨-, hkind, -, hnodes, -, -⟩ := addNode_eq_ok added
    rw [hnodes, Array.getElem?_push] at h
    split at h
    next hi =>
      cases h
      exact iff_of_false hkind (hi ▸ Nat.ne_of_gt grown.wellFormed.rooted)
    next => exact ih h
  | addEstimate _ added ih =>
    obtain ⟨-, -, -, hnodes, -⟩ := addEstimate_eq_ok added
    exact ih (hnodes ▸ h)
  | addUnknown _ added ih =>
    obtain ⟨-, hnodes, -⟩ := addUnknown_eq_ok added
    exact ih (hnodes ▸ h)

/-- The records of a tree that was built are linked. Links of the tree itself point upwards, and its
lists are derived from them. -/
theorem Grown.linked_records (grown : t.Grown) : t.records.Linked := by
  have w := grown.wellFormed
  have hnode {i : Nat} {m : NodeRecord} (h : t.records.nodes[i]? = some m) :
      ∃ n, t.nodes[i]? = some n ∧ t.nodeRecord i n = m := by
    rw [records_nodes_get?] at h
    exact Option.map_eq_some_iff.mp h
  have hestimate {i : Nat} {m : EstimateRecord} (h : t.records.estimates[i]? = some m) :
      ∃ e, t.estimates[i]? = some e ∧ t.estimateRecord i e = m := by
    rw [records_estimates_get?] at h
    exact Option.map_eq_some_iff.mp h
  -- Every record is that of a node or memory of the tree, so each field is a fact about the tree.
  constructor
  case rooted => rw [size_records_nodes]; exact w.rooted
  case top_iff =>
    intro i m hm
    obtain ⟨n, hn, rfl⟩ := hnode hm
    exact grown.kind_eq_top_iff hn
  case parentless_iff =>
    intro i m hm
    obtain ⟨n, hn, rfl⟩ := hnode hm
    constructor
    · intro hnone
      by_contra hi
      obtain ⟨p, hp⟩ := w.inner i n hn hi
      cases hp.symm.trans hnone
    · rintro rfl
      refine Option.eq_none_iff_forall_ne_some.mpr fun p hp => ?_
      exact Nat.not_lt_zero _ (t.node_parent_lt 0 n p hn hp)
  case node_parent_lt =>
    intro i m p hm hp
    obtain ⟨n, hn, rfl⟩ := hnode hm
    exact t.node_parent_lt i n p hn hp
  case node_children =>
    intro j m c hm
    obtain ⟨n, hn, rfl⟩ := hnode hm
    rw [records_nodeParent?]
    exact (nodeChildren_nodup ⟨j⟩).count.trans (if_congr mem_nodeChildren rfl rfl)
  case node_estimates =>
    intro j m e hm
    obtain ⟨n, hn, rfl⟩ := hnode hm
    rw [records_home?]
    exact (nodeEstimates_nodup ⟨j⟩).count.trans (if_congr mem_nodeEstimates rfl rfl)
  case pointers_ne_nil =>
    intro i m hm
    obtain ⟨e, he, rfl⟩ := hestimate hm
    exact List.cons_ne_nil _ _
  case housed =>
    intro i m hm
    obtain ⟨e, he, rfl⟩ := hestimate hm
    rw [size_records_nodes]
    exact w.housed i e he
  case estimate_parent_lt =>
    intro i m p hm hp
    obtain ⟨e, he, rfl⟩ := hestimate hm
    exact t.estimate_parent_lt i e p he hp
  case estimate_children =>
    intro j m c hm
    obtain ⟨e, he, rfl⟩ := hestimate hm
    rw [records_estimateParent?]
    exact (estimateChildren_nodup ⟨j⟩).count.trans (if_congr mem_estimateChildren rfl rfl)
  case nested =>
    intro i m outer p hm hp ho
    obtain ⟨e, he, rfl⟩ := hestimate hm
    obtain ⟨whole, hwhole, rfl⟩ := hestimate ho
    refine (isNodeAncestor_records (w.housed i e he)).trans ?_
    exact w.nested i e whole p he hp hwhole

/-- Whatever is added, and whatever is refused, the records that are built are linked, they are
those of the tree the same additions grow, and a further addition that is refused leaves them as
they are. -/
theorem Records.linked_built (additions : List Addition) :
    (built additions).Linked ∧ built additions = (ofAdditions additions).records
      ∧ ∀ a e r, (make a).run (built additions) = .error e r → r = built additions := by
  have hbuilt := built_eq additions
  refine ⟨?_, hbuilt, fun a e r h => eq_of_run_make_error h⟩
  rw [hbuilt]
  exact (grown_ofAdditions additions).linked_records

end AliasTree

end Privatization
