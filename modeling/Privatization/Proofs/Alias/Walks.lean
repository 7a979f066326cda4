import Mathlib.Data.List.Nodup
import Privatization.Proofs.Forest.Order
import Privatization.Proofs.Guarded.Tree

/-!
# The walks through an alias tree agree

Downward walks read what a node or a memory contains, upward climbs read what lies around it. In
every tree that additions build, both tell of the same order: a walk down from `a` meets what `a` is
an ancestor of and nothing else (`IsPreOrder`), the visit of all nodes comes to a node after
everything inside it (`IsPostOrder`), and what a climb answers about two nodes or memories is what
their walks have in common (`WalksAgree`). The walks over a stack, which look up every record they
come to, give the same lists.
-/

namespace Privatization

/-! ## Walks downwards -/

/-- A walk from `a` through everything `a` lies around: it starts at `a`, meets each member once,
and comes to none before it met what is directly around it. -/
structure IsPreOrder {α : Type} (around : α → α → Bool) (parent? : α → Option α) (a : α)
    (walk : List α) : Prop where
  meets : ∀ x, x ∈ walk ↔ around a x = true
  once : walk.Nodup
  starts : walk.head? = some a
  inward : ∀ before x after, walk = before ++ x :: after → x ≠ a → ∃ p ∈ before, parent? x = some p

/-- A walk stays one when its members are renamed. -/
theorem IsPreOrder.map {α β : Type} {around : α → α → Bool} {parent? : α → Option α}
    {around' : β → β → Bool} {parent?' : β → Option β} {a : α} {walk : List α} {g : α → β}
    (h : IsPreOrder around parent? a walk) (hg : Function.Bijective g)
    (haround : ∀ x y, around' (g x) (g y) = around x y)
    (hparent : ∀ x, parent?' (g x) = (parent? x).map g) :
    IsPreOrder around' parent?' (g a) (walk.map g) where
  meets y := by
    obtain ⟨x, rfl⟩ := hg.2 y
    rw [List.mem_map_of_injective hg.1, h.meets, haround]
  once := List.Nodup.map hg.1 h.once
  starts := by rw [List.head?_map, h.starts, Option.map_some]
  inward before y after hsplit hne := by
    obtain ⟨pre, rest, rfl, rfl, hrest⟩ := List.map_eq_append_iff.mp hsplit
    obtain ⟨x, post, rfl, rfl, rfl⟩ := List.map_eq_cons_iff.mp hrest
    obtain ⟨p, hp, hx⟩ := h.inward pre x post rfl fun hxa => hne (congrArg g hxa)
    exact ⟨g p, List.mem_map_of_mem hp, by rw [hparent, hx, Option.map_some]⟩

namespace Forest

variable {f : Forest} {i : Nat}

/-- The pre-order of a forest is a walk downwards. -/
theorem isPreOrder_preOrder (hchild : ∀ j p, f.parent j = some p → j < f.size)
    (hi : i < f.size) : IsPreOrder f.isAncestor f.parent i (f.preOrder i) where
  meets x := by
    rw [f.mem_preOrder hi, f.isAncestor_iff]
    exact and_iff_right_of_imp (lt_of_mem_lineage hchild hi)
  once := f.preOrder_nodup hi
  starts := by rw [f.preOrder_eq, List.head?_cons]
  inward before x after hsplit hne := by
    have hx : x ∈ f.preOrder i := hsplit ▸ List.mem_append_right before List.mem_cons_self
    obtain ⟨hxs, hix⟩ := (f.mem_preOrder hi).mp hx
    obtain ⟨p, hp⟩ : ∃ p, f.parent x = some p := by
      refine Option.ne_none_iff_exists'.mp fun hnone => ?_
      exact hne ((f.mem_lineage_of_none hnone).mp hix).symm
    have hpx := f.parent_lt hp
    -- The parent is met, and it cannot be met later than the node it lies around.
    have hmem := (f.mem_preOrder hi).mpr
      ⟨Nat.lt_trans hpx hxs, f.mem_lineage_parent hp hix hne.symm⟩
    exact ⟨p, mem_before (f.preOrder_pairwise hi) hsplit hmem (Nat.ne_of_lt hpx)
      (not_not.mpr (f.parent_mem_lineage hp)), hp⟩

end Forest

namespace AliasTree

variable {t : AliasTree}

/-- The walk through the nodes below a node is in pre-order. -/
theorem isPreOrder_descendants {n : AliasNodeId} (hn : n.index < t.nodes.size) :
    IsPreOrder t.isNodeAncestor t.nodeParent? n (t.descendants n) := by
  refine (Forest.isPreOrder_preOrder nodeForest_lt_of_parent hn).map (g := AliasNodeId.mk) ?_
    (fun _ _ => rfl) ?_
  · exact ⟨fun _ _ h => congrArg AliasNodeId.index h, fun m => ⟨m.index, rfl⟩⟩
  · intro i
    rw [nodeForest_parent ⟨i⟩, Option.map_map]
    exact (Option.map_id' ..).symm

/-- The walk through the parts of a memory is in pre-order. -/
theorem isPreOrder_estimateDescendants {e : EstimateId} (he : e.index < t.estimates.size) :
    IsPreOrder t.isEstimateAncestor t.estimateParent? e (t.estimateDescendants e) := by
  have hchild (j p : Nat) (h : t.estimateForest.parent j = some p) :
      j < t.estimateForest.size := by
    obtain ⟨q, hq, -⟩ := Option.map_eq_some_iff.mp h
    obtain ⟨m, hm, -⟩ := Option.bind_eq_some_iff.mp hq
    exact (Array.getElem?_eq_some_iff.mp hm).1
  refine (Forest.isPreOrder_preOrder hchild he).map (g := EstimateId.mk) ?_ (fun _ _ => rfl) ?_
  · exact ⟨fun _ _ h => congrArg EstimateId.index h, fun m => ⟨m.index, rfl⟩⟩
  · intro i
    rw [estimateForest_parent ⟨i⟩, Option.map_map]
    exact (Option.map_id' ..).symm

/-! ## The visit of all nodes -/

/-- A visit of every node of a tree: it meets each node once, after everything inside it and after
the siblings that were added earlier, and ends at the root. -/
structure IsPostOrder (t : AliasTree) (walk : List AliasNodeId) : Prop where
  meets : ∀ n, n ∈ walk ↔ n.index < t.nodes.size
  once : walk.Nodup
  outward : ∀ before n after, walk = before ++ n :: after →
    ∀ d, t.isNodeAncestor n d = true → d ≠ n → d ∈ before
  elders : ∀ before n after, walk = before ++ n :: after →
    ∀ p s, t.nodeParent? n = some p → t.nodeParent? s = some p → s.index < n.index → s ∈ before
  ends : walk.getLast? = some top

/-- The visit of all nodes of a well-formed tree comes to the outer ones after the inner ones. -/
theorem WellFormed.isPostOrder_postOrder (w : t.WellFormed) : t.IsPostOrder t.postOrder where
  meets n := w.mem_postOrder
  once := w.postOrder_nodup
  outward before n after hsplit d hnd hne := by
    have hpairwise : t.postOrder.Pairwise fun a b => ¬t.isNodeAncestor a b = true :=
      List.pairwise_map.mpr ((t.nodeForest.postOrder_pairwise w.rooted).imp
        fun hab h => hab (isNodeAncestor_iff.mp h))
    have hn := w.mem_postOrder.mp (hsplit ▸ List.mem_append_right before List.mem_cons_self)
    have hd := Forest.lt_of_mem_lineage nodeForest_lt_of_parent hn (isNodeAncestor_iff.mp hnd)
    exact mem_before hpairwise hsplit (w.mem_postOrder.mpr hd) hne (not_not.mpr hnd)
  elders before n after hsplit p s hn hs hlt := by
    have hpairwise : t.postOrder.Pairwise fun a b =>
        ∀ p, t.nodeParent? a = some p → t.nodeParent? b = some p → a.index < b.index :=
      List.pairwise_map.mpr ((t.nodeForest.postOrder_siblings w.rooted).imp
        fun hab p ha hb => hab p.index (nodeForest_parent_of ha) (nodeForest_parent_of hb))
    refine mem_before hpairwise hsplit (w.mem_postOrder.mpr (node_lt_of_parent hs)) ?_ ?_
    · rintro rfl
      exact Nat.lt_irrefl _ hlt
    · intro hR
      exact Nat.lt_asymm hlt (hR p hn hs)
  ends := by
    obtain ⟨before, h⟩ := t.postOrder_concat
    rw [h, List.getLast?_concat]

/-! ## Climbs and walks -/

/-- The climb from a memory ends at the one without parent around it. -/
theorem outermost_iff {a e : EstimateId} :
    t.isEstimateAncestor a e = true ∧ t.estimateParent? a = none ↔ a = t.outermost e := by
  have hnone : t.estimateParent? a = none ↔ t.estimateForest.parent a.index = none := by
    rw [estimateForest_parent, Option.map_eq_none_iff]
  rw [isEstimateAncestor_iff, hnone, t.estimateForest.root_iff]
  exact ⟨congrArg EstimateId.mk, congrArg EstimateId.index⟩

/-- Of two memories, one inside the other, the outer one is given. -/
theorem enclosing?_eq_some_iff {a b x : EstimateId} :
    t.enclosing? a b = some x ↔
      x = a ∧ t.isEstimateAncestor a b = true ∨ x = b ∧ t.isEstimateAncestor b a = true := by
  unfold enclosing?
  split
  next hab =>
    rw [Option.some.injEq]
    constructor
    · rintro rfl
      exact .inl ⟨rfl, hab⟩
    · rintro (⟨rfl, -⟩ | ⟨rfl, hba⟩)
      · rfl
      · exact isEstimateAncestor_antisymm hab hba
  next hab =>
    split
    next hba =>
      rw [Option.some.injEq]
      constructor
      · rintro rfl
        exact .inr ⟨rfl, hba⟩
      · rintro (⟨-, hab'⟩ | ⟨rfl, -⟩)
        · exact absurd hab' hab
        · rfl
    next hba =>
      constructor
      · intro h
        cases h
      · rintro (⟨-, hab'⟩ | ⟨-, hba'⟩)
        · exact absurd hab' hab
        · exact absurd hba' hba

/-- Two nodes may alias if some node lies in both. -/
theorem mayAliasNodes_iff {a b : AliasNodeId} (ha : a.index < t.nodes.size)
    (hb : b.index < t.nodes.size) :
    t.mayAliasNodes a b = true ↔ ∃ n, n ∈ t.descendants a ∧ n ∈ t.descendants b := by
  unfold mayAliasNodes
  rw [Bool.or_eq_true]
  constructor
  · rintro (hab | hba)
    · exact ⟨b, (mem_descendants ha).mpr hab, (mem_descendants hb).mpr (isNodeAncestor_refl b)⟩
    · exact ⟨a, (mem_descendants ha).mpr (isNodeAncestor_refl a), (mem_descendants hb).mpr hba⟩
  · rintro ⟨n, han, hbn⟩
    exact isNodeAncestor_chain ((mem_descendants ha).mp han) ((mem_descendants hb).mp hbn)

/-- What the walks through a tree say, and how they agree with its climbs. -/
structure WalksAgree (t : AliasTree) : Prop where
  isNodeAncestor : ∀ a n, n.index < t.nodes.size →
    Guarded.isNodeAncestor t a n = .ok (t.isNodeAncestor a n)
  isEstimateAncestor : ∀ a e, e.index < t.estimates.size →
    Guarded.isEstimateAncestor t a e = .ok (t.isEstimateAncestor a e)
  postOrder : Guarded.postOrder t = .ok t.postOrder ∧ t.IsPostOrder t.postOrder
  descendants : ∀ n, n.index < t.nodes.size →
    Guarded.descendants t n = .ok (t.descendants n)
      ∧ IsPreOrder t.isNodeAncestor t.nodeParent? n (t.descendants n)
  estimateDescendants : ∀ e, e.index < t.estimates.size →
    Guarded.estimateDescendants t e = .ok (t.estimateDescendants e)
      ∧ IsPreOrder t.isEstimateAncestor t.estimateParent? e (t.estimateDescendants e)
  outermost : ∀ e, e.index < t.estimates.size → Guarded.outermost t e = .ok (t.outermost e)
    ∧ ∀ a, t.isEstimateAncestor a e = true ∧ t.estimateParent? a = none ↔ a = t.outermost e
  enclosing : ∀ a b x, t.enclosing? a b = some x ↔
    x = a ∧ t.isEstimateAncestor a b = true ∨ x = b ∧ t.isEstimateAncestor b a = true
  mayAlias : ∀ a b, a.index < t.nodes.size → b.index < t.nodes.size →
    (t.mayAliasNodes a b = true ↔ ∃ n, n ∈ t.descendants a ∧ n ∈ t.descendants b)

/-- In every tree that additions build, the walks agree. -/
theorem walksAgree_ofAdditions (additions : List Addition) : (ofAdditions additions).WalksAgree :=
  have w := (grown_ofAdditions additions).wellFormed
  { isNodeAncestor := fun a _ hn => Guarded.isNodeAncestor_eq a hn
    isEstimateAncestor := fun a _ he => Guarded.isEstimateAncestor_eq a he
    postOrder := ⟨Guarded.postOrder_eq w, w.isPostOrder_postOrder⟩
    descendants := fun _ hn => ⟨Guarded.descendants_eq hn, isPreOrder_descendants hn⟩
    estimateDescendants := fun _ he =>
      ⟨Guarded.estimateDescendants_eq he, isPreOrder_estimateDescendants he⟩
    outermost := fun _ he => ⟨Guarded.outermost_eq he, fun _ => outermost_iff⟩
    enclosing := fun _ _ _ => enclosing?_eq_some_iff
    mayAlias := fun _ _ ha hb => mayAliasNodes_iff ha hb }

/-- Two nodes below the root, and one in the first of them: it is visited before the node around it,
although it was added last. -/
example : (ofAdditions [.node top .estimate, .node top .unknown, .node ⟨1⟩ .estimate]).postOrder
    = [⟨3⟩, ⟨1⟩, ⟨2⟩, ⟨0⟩] := by
  decide +kernel

end AliasTree

end Privatization
