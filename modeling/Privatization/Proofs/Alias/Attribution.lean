import Mathlib.Data.List.Induction
import Privatization.Alias.Lookup
import Privatization.Proofs.Alias.Linked
import Privatization.Proofs.Collection.Lists

/-!
# Where unknown accesses are attributed

An attribution is kept twice: in the list of its node, and under the access in an index. Both grow
by the same addition, and the addition may come again for an access, with another node or the same.
The lists then keep both attributions and the index the later one alone (`Attributed`). So they
agree on an access exactly if it was attributed at most once (`indexed_iff_attributed_once`).
-/

namespace Privatization

namespace AliasTree

/-- The index and the lists of a tree agree on an unknown access: it is found at the node that lists
it, no second node does, and that node lists it once. -/
structure Indexed (t : AliasTree) (inst : InstId) : Prop where
  found_iff : ∀ n, t.findUnknown? inst = some n ↔ inst ∈ t.nodeUnknowns n
  one : ∀ m n, inst ∈ t.nodeUnknowns m → inst ∈ t.nodeUnknowns n → m = n
  once : ∀ n, (t.nodeUnknowns n).count inst ≤ 1

/-- The node an addition attributes an unknown access to. There is none if the addition is not about
the access, or names a node that is not there. -/
def target (t : AliasTree) (inst : InstId) : Addition → List AliasNodeId
  | .node _ _ => []
  | .estimate _ _ _ _ _ => []
  | .unknown node i => if i = inst ∧ node.index < t.nodes.size then [node] else []

/-- The nodes that additions to a tree attribute an unknown access to, one after another. -/
def targets (t : AliasTree) (inst : InstId) : List Addition → List AliasNodeId
  | [] => []
  | a :: as => t.target inst a ++ (t.grow a).targets inst as

/-- What a tree holds of the attributions of an unknown access to `nodes`, made in this order: the
index has the last node, and a node lists the access once for each attribution to it. -/
structure Attributed (t : AliasTree) (inst : InstId) (nodes : List AliasNodeId) : Prop where
  found : t.findUnknown? inst = nodes.getLast?
  listed : ∀ n, (t.nodeUnknowns n).count inst = nodes.count n

variable {t t' : AliasTree} {inst : InstId} {nodes : List AliasNodeId}

/-! ## One addition -/

theorem findUnknown?_congr (h : t'.attributions = t.attributions) (i : InstId) :
    t'.findUnknown? i = t.findUnknown? i := by
  unfold findUnknown?
  rw [h]

/-- A new attribution replaces the node an instruction is found at. -/
theorem findUnknown?_addUnknown {node : AliasNodeId} (h : t.addUnknown node inst = .ok t')
    (i : InstId) : t'.findUnknown? i = if inst = i then some node else t.findUnknown? i := by
  obtain ⟨-, -, -, hattributions⟩ := addUnknown_eq_ok h
  unfold findUnknown?
  rw [hattributions, List.reverse_concat, List.find?_cons]
  by_cases hi : inst = i
  · rw [if_pos hi, beq_iff_eq.mpr hi]
    rfl
  · rw [if_neg hi, beq_eq_false_iff_ne.mpr hi]

namespace Attributed

theorem congr (h : t.Attributed inst nodes) (hsame : t'.attributions = t.attributions) :
    t'.Attributed inst nodes where
  found := (findUnknown?_congr hsame inst).trans h.found
  listed n := (congrArg (List.count inst) (nodeUnknowns_congr hsame n)).trans (h.listed n)

/-- An accepted attribution adds its node to those of the instruction. -/
theorem addUnknown (h : t.Attributed inst nodes) {node : AliasNodeId} {i : InstId}
    (added : t.addUnknown node i = .ok t') :
    t'.Attributed inst (nodes ++ if i = inst then [node] else []) := by
  constructor
  case found =>
    rw [findUnknown?_addUnknown added, h.found]
    split
    · exact List.getLast?_concat.symm
    · rw [List.append_nil]
  case listed =>
    intro n
    rw [nodeUnknowns_addUnknown added, List.count_append, List.count_append, h.listed]
    -- The new attribution counts on both sides or on neither.
    by_cases hi : i = inst <;> by_cases hn : node = n <;> simp [hi, hn]

/-- An addition adds the node it attributes the instruction to, if it is accepted, and otherwise
nothing. -/
theorem grow (h : t.Attributed inst nodes) (a : Addition) :
    (t.grow a).Attributed inst (nodes ++ t.target inst a) := by
  unfold AliasTree.grow
  cases a with
  | node parent kind =>
    rw [AliasTree.add, target, List.append_nil]
    cases added : t.addNode parent kind with
    | error e => exact h
    | ok q =>
      obtain ⟨-, -, -, -, -, hsame⟩ := addNode_eq_ok added
      exact h.congr hsame
  | estimate node pointers size offset parent =>
    rw [AliasTree.add, target, List.append_nil]
    cases added : t.addEstimate node pointers size offset parent with
    | error e => exact h
    | ok q =>
      obtain ⟨-, -, -, -, hsame, -⟩ := addEstimate_eq_ok added
      exact h.congr hsame
  | unknown node i =>
    rw [AliasTree.add, target]
    by_cases hnode : node.index < t.nodes.size
    · -- Only an accepted attribution counts, and only the number of the node decides whether it is
      -- accepted.
      have added : t.addUnknown node i = .ok _ := if_pos hnode
      rw [added, if_congr (and_iff_left hnode) rfl rfl]
      exact h.addUnknown added
    · have refused : t.addUnknown node i = .error _ := if_neg hnode
      rw [refused, if_neg (fun hi => hnode hi.2), List.append_nil]
      exact h

end Attributed

/-! ## Sequences of additions -/

/-- A tree holds the attributions it has accepted. -/
theorem attributed_ofAdditions (additions : List Addition) (inst : InstId) :
    (ofAdditions additions).Attributed inst (targets ∅ inst additions) := by
  have hfold (t : AliasTree) (nodes : List AliasNodeId) (h : t.Attributed inst nodes) :
      (additions.foldl AliasTree.grow t).Attributed inst (nodes ++ t.targets inst additions) := by
    induction additions generalizing t nodes with
    | nil => rwa [targets, List.append_nil]
    | cons a additions ih =>
      rw [targets, ← List.append_assoc]
      exact ih (t.grow a) _ (h.grow a)
  exact hfold ∅ [] ⟨rfl, fun _ => rfl⟩

/-! ## When the index and the lists agree -/

namespace Attributed

variable (h : t.Attributed inst nodes)
include h

/-- A node lists the instruction if it is attributed to it. -/
theorem mem_nodeUnknowns {n : AliasNodeId} : inst ∈ t.nodeUnknowns n ↔ n ∈ nodes := by
  rw [← List.count_pos_iff, h.listed, List.count_pos_iff]

/-- The access is found where it is listed exactly if all attributions are to one node. -/
theorem found_iff : (∀ n, t.findUnknown? inst = some n ↔ inst ∈ t.nodeUnknowns n)
    ↔ ∀ m ∈ nodes, ∀ n ∈ nodes, m = n := by
  simp only [h.found, h.mem_nodeUnknowns]
  constructor
  · intro hfound m hm n hn
    exact Option.some_inj.mp (((hfound m).mpr hm).symm.trans ((hfound n).mpr hn))
  · intro hone n
    refine ⟨List.mem_of_getLast?, fun hn => ?_⟩
    rw [List.getLast?_eq_some_getLast (List.ne_nil_of_mem hn)]
    exact congrArg some (hone _ (List.getLast_mem _) n hn)

/-- No node lists the access twice exactly if no two attributions are to one node. -/
theorem once_iff : (∀ n, (t.nodeUnknowns n).count inst ≤ 1) ↔ nodes.Nodup := by
  simp only [h.listed, List.nodup_iff_count]

/-- The index and the lists of the nodes agree exactly if the instruction is attributed at most
once. -/
theorem indexed_iff : t.Indexed inst ↔ nodes.length ≤ 1 := by
  rw [length_le_one_iff, ← h.once_iff]
  constructor
  · exact fun hindexed => ⟨h.found_iff.mp hindexed.found_iff, hindexed.once⟩
  · rintro ⟨hone, honce⟩
    constructor
    case found_iff => exact h.found_iff.mpr hone
    case one =>
      intro m n hm hn
      exact hone m (h.mem_nodeUnknowns.mp hm) n (h.mem_nodeUnknowns.mp hn)
    case once => exact honce

end Attributed

/-! ## The index that is stored -/

namespace Records

/-- The node that stands in the index under an unknown access. -/
def findUnknown? (r : Records) (inst : InstId) : Option AliasNodeId := r.unknowns.get? inst

/-- The unknown accesses that are listed at a node. -/
def nodeUnknowns (r : Records) (n : AliasNodeId) : List InstId :=
  ((r.nodes[n.index]?).map (·.unknowns)).getD []

theorem findUnknown?_records (t : AliasTree) : t.records.findUnknown? = t.findUnknown? := by
  funext inst
  show (t.attributions.foldl (fun m a => m.insert a.1 a.2) ∅ : OrderedMap _ _).get? inst
    = (t.attributions.reverse.find? (·.1 == inst)).map Prod.snd
  induction t.attributions using List.reverseRecOn with
  | nil => rfl
  | append_singleton as a ih =>
    rw [List.foldl_append, List.foldl_cons, List.foldl_nil, List.reverse_concat, List.find?_cons]
    by_cases h : a.1 = inst
    · rw [← h, OrderedMap.get?_insert_self, beq_self_eq_true]
      rfl
    · rw [OrderedMap.get?_insert_of_ne _ _ (Ne.symm h), ih, beq_eq_false_iff_ne.mpr h]

theorem nodeUnknowns_records (w : t.WellFormed) : t.records.nodeUnknowns = t.nodeUnknowns := by
  funext n
  unfold nodeUnknowns
  rw [records_nodes_get?]
  cases hn : t.nodes[n.index]? with
  | none => exact (w.nodeUnknowns_eq_nil (Array.getElem?_eq_none_iff.mp hn)).symm
  | some m => rfl

end Records

/-- Whatever is added, and whatever is refused, the index and the lists agree on an unknown access
exactly if at most one attribution of it was accepted. In any case the index has the node of the
last one and the lists have all of them, and this is what is stored when the records are built. -/
theorem indexed_iff_attributed_once (additions : List Addition) (inst : InstId) :
    ((ofAdditions additions).Indexed inst ↔ (targets ∅ inst additions).length ≤ 1)
      ∧ (ofAdditions additions).Attributed inst (targets ∅ inst additions)
      ∧ (Records.built additions).findUnknown? = (ofAdditions additions).findUnknown?
      ∧ (Records.built additions).nodeUnknowns = (ofAdditions additions).nodeUnknowns := by
  have hattributed := attributed_ofAdditions additions inst
  have w := (grown_ofAdditions additions).wellFormed
  rw [Records.built_eq]
  exact ⟨hattributed.indexed_iff, hattributed, Records.findUnknown?_records _,
    Records.nodeUnknowns_records w⟩

/-- Two nodes, and an unknown access that is attributed to `m` and then to `n`. -/
def attributedTwice (m n : AliasNodeId) : List Addition :=
  [.node top .unknown, .node top .unknown, .unknown m ⟨0⟩, .unknown n ⟨0⟩]

/-- An access that is attributed anew is found at its new node, and goes on being listed at the
other one. -/
theorem listed_where_not_found :
    (ofAdditions (attributedTwice ⟨1⟩ ⟨2⟩)).findUnknown? ⟨0⟩ = some ⟨2⟩
      ∧ ⟨0⟩ ∈ (ofAdditions (attributedTwice ⟨1⟩ ⟨2⟩)).nodeUnknowns ⟨1⟩
      ∧ ¬(ofAdditions (attributedTwice ⟨1⟩ ⟨2⟩)).Indexed ⟨0⟩ := by
  have hfound : (ofAdditions (attributedTwice ⟨1⟩ ⟨2⟩)).findUnknown? ⟨0⟩ = some ⟨2⟩ := by decide
  have hlisted : ⟨0⟩ ∈ (ofAdditions (attributedTwice ⟨1⟩ ⟨2⟩)).nodeUnknowns ⟨1⟩ := by decide
  refine ⟨hfound, hlisted, fun h => ?_⟩
  exact absurd (hfound.symm.trans ((h.found_iff ⟨1⟩).mpr hlisted)) (by decide)

/-- Attributed to the same node again, it is listed there twice. -/
example : (ofAdditions (attributedTwice ⟨1⟩ ⟨1⟩)).nodeUnknowns ⟨1⟩ = [⟨0⟩, ⟨0⟩] := by decide

end AliasTree

end Privatization
