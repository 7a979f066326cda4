import Privatization.Proofs.Alias.InRange
import Privatization.Proofs.Classification.Forcing
import Privatization.Proofs.Classification.LastValues
import Privatization.Proofs.Propagation.Recorded
import Privatization.Proofs.Propagation.Values

/-!
# What covers a node

Which nodes coverage finds spanned (`mem_coveredNodes_iff`). It asks for the memory accessed by name
in more than its address, but only after the propagation, when the entry of a memory has the value
of the whole group it was folded into. Memory whose address escapes counts from then on if it is
listed at the root together with memory the loop accesses: `coveredNodes_escapingHalf` shows a loop
that accesses half of an object and is found to span all of it. Where no such memory is folded into
accessed memory, a node is covered exactly if accesses span it.
-/

namespace Privatization

/-! ## Spanned nodes -/

namespace AliasTree

variable {t : AliasTree} {n : AliasNodeId} {p q : EstimateId → Prop}

/-- Whether `em` is memory of the node in the object of `root`, and `p` holds of it. -/
def Piece (t : AliasTree) (n : AliasNodeId) (root : EstimateId) (p : EstimateId → Prop)
    (em : EstimateId) : Prop :=
  p em ∧ t.home em = n ∧ t.outermost em = t.outermost root

/-- Each of the root memories of a node is spanned by memory of the node of which `p` holds. -/
structure SpannedBy (t : AliasTree) (n : AliasNodeId) (p : EstimateId → Prop) : Prop where
  rooted : t.nodeRoots n ≠ []
  pieces : ∀ root ∈ t.nodeRoots n, ∃ em, t.Piece n root p em
  bytes : ∀ root ∈ t.nodeRoots n, ∀ e, t.estimate? root = some e → ∀ b ∈ e.range,
    ∃ em part, t.Piece n root p em ∧ t.estimate? em = some part ∧ b ∈ part.range

theorem SpannedBy.imp (h : t.SpannedBy n p) (hpq : ∀ em, t.home em = n → p em → q em) :
    t.SpannedBy n q where
  rooted := h.rooted
  pieces root hroot := by
    obtain ⟨em, hp, hhome, hobject⟩ := h.pieces root hroot
    exact ⟨em, hpq em hhome hp, hhome, hobject⟩
  bytes root hroot e he b hb := by
    obtain ⟨em, part, ⟨hp, hhome, hobject⟩, hpart, hbyte⟩ := h.bytes root hroot e he b hb
    exact ⟨em, part, ⟨hpq em hhome hp, hhome, hobject⟩, hpart, hbyte⟩

/-- The sweeps over the root memories decide whether a node is spanned. -/
theorem isSpanned_iff {accessed : List EstimateId}
    (h : ∀ em ∈ accessed, em.index < t.estimates.size) :
    t.isSpanned accessed n = true ↔ t.SpannedBy n (· ∈ accessed) := by
  have hmem (em : EstimateId) :
      (em ∈ accessed.filter fun em => t.home em == n) ↔ em ∈ accessed ∧ t.home em = n := by
    rw [List.mem_filter, beq_iff_eq]
  -- A root is covered bytewise by the accessed memory of the node.
  have hcovers {root : EstimateId} {e : Estimate} (he : t.estimate? root = some e) :=
    @covers_iff t root (accessed.filter fun em => t.home em == n) e he
  have hroot {root : EstimateId} (hr : root ∈ t.nodeRoots n) : ∃ e, t.estimate? root = some e :=
    ⟨_, Array.getElem?_eq_getElem (mem_nodeRoots_lt hr)⟩
  unfold isSpanned
  rw [Bool.and_eq_true, Bool.not_eq_true', List.isEmpty_eq_false_iff, List.all_eq_true]
  constructor
  · rintro ⟨hne, hall⟩
    refine ⟨hne, fun root hr => ?_, fun root hr e he b hb => ?_⟩
    · obtain ⟨e, he⟩ := hroot hr
      obtain ⟨em, hem, hobject, -⟩ := ((hcovers he).mp (hall root hr)).1
      obtain ⟨haccessed, hhome⟩ := (hmem em).mp hem
      exact ⟨em, haccessed, hhome, hobject⟩
    · obtain ⟨em, hem, hobject, part, hpart, hbyte⟩ := ((hcovers he).mp (hall root hr)).2 b hb
      obtain ⟨haccessed, hhome⟩ := (hmem em).mp hem
      exact ⟨em, part, ⟨haccessed, hhome, hobject⟩, hpart, hbyte⟩
  · intro hspanned
    refine ⟨hspanned.rooted, fun root hr => ?_⟩
    obtain ⟨e, he⟩ := hroot hr
    refine (hcovers he).mpr ⟨?_, fun b hb => ?_⟩
    · obtain ⟨em, haccessed, hhome, hobject⟩ := hspanned.pieces root hr
      exact ⟨em, (hmem em).mpr ⟨haccessed, hhome⟩, hobject, _,
        Array.getElem?_eq_getElem (h em haccessed)⟩
    · obtain ⟨em, part, ⟨haccessed, hhome, hobject⟩, hpart, hbyte⟩ := hspanned.bytes root hr e he b hb
      exact ⟨em, (hmem em).mpr ⟨haccessed, hhome⟩, hobject, part, hpart, hbyte⟩

end AliasTree

/-! ## What coverage takes for accessed -/

/-- Whether a memory that is listed for a node lies around both. -/
def NodeTrait.Joins (nt : NodeTrait) (t : AliasTree) (a b : EstimateId) : Prop :=
  ∃ mt ∈ nt.memories, t.isEstimateAncestor mt.memory a = true
    ∧ t.isEstimateAncestor mt.memory b = true

namespace Scope

variable {s : Scope} {l : Ledger} {d : DependenceMap} {n : AliasNodeId} {em m : EstimateId}

/-- What coverage takes for accessed by name: memory that is, and memory whose address escapes if it
is listed at the root together with memory that is. -/
def TakenForAccessed (s : Scope) (traits : TraitMap) (em : EstimateId) : Prop :=
  s.named em = true ∨ (s.escapes em = true ∧ ∃ nt, traits.get? AliasTree.top = some nt
    ∧ ∃ em', s.named em' = true ∧ nt.Joins s.tree em em')

theorem index_lt_of_tracked (h : s.named em = true ∨ s.escapes em = true) :
    em.index < s.tree.estimates.size := by
  rcases h with h | h
  · obtain ⟨loc, -, hloc⟩ := List.any_eq_true.mp h
    exact AliasTree.find?_lt (locates_iff.mp hloc)
  · obtain ⟨ptr, -, hptr⟩ := List.any_eq_true.mp h
    unfold leaks at hptr
    rw [Bool.and_eq_true] at hptr
    exact AliasTree.find?_lt (locates_iff.mp hptr.1)

section Resolved

variable (w : s.tree.WellFormed) (h : s.resolve { dependences := d } = .ok l)

include w h

/-- After the propagation, memory that is listed at the root around memory accessed by name has more
than its address accessed, with everything inside it. -/
theorem mem_explicitlyAccessed_iff (settings : Settings) :
    em ∈ (s.propagate l ∅).1.explicitlyAccessed
      ↔ s.TakenForAccessed (s.finish l settings).traits em := by
  have noted := noted_resolve h
  have hreach (e : EstimateId) : s.reaches AliasTree.top e = true := w.top_ancestor (w.home_lt e)
  have haround {m e : EstimateId} (hm : m ∈ s.heads l AliasTree.top)
      (he : e ∈ l.explicit.keys) := standsFor_iff_around hm he (hreach e)
  obtain ⟨hstored, houtcome⟩ := finish_outcome w noted settings AliasTree.top
  rw [mem_explicitlyAccessed w noted.fresh]
  constructor
  · rintro ⟨hkey, m, hm, hstands, htouched⟩
    have htracked := (noted.keys em).mp hkey
    refine htracked.imp_right fun hescapes => ⟨hescapes, ?_⟩
    obtain ⟨nt, hnt⟩ := Option.isSome_iff_exists.mp (hstored.mpr (.inl ⟨em, htracked, hreach em⟩))
    obtain ⟨mt, hmt, rfl⟩ := List.mem_map.mp (((houtcome nt hnt).heads m).mpr hm)
    obtain ⟨em', hkey', hstands', hnamed⟩ := (touched_verdict_iff noted w hm).mp htouched
    exact ⟨nt, hnt, em', hnamed, mt, hmt, (haround hm hkey).mp hstands,
      (haround hm hkey').mp hstands'⟩
  · intro htaken
    have htracked : s.named em = true ∨ s.escapes em = true := htaken.imp_right And.left
    have hkey := (noted.keys em).mpr htracked
    -- In both cases some head lies around the memory and around memory accessed by name.
    have hjoined : ∃ m ∈ s.heads l AliasTree.top, s.tree.isEstimateAncestor m em = true
        ∧ ∃ em', s.named em' = true ∧ s.tree.isEstimateAncestor m em' = true := by
      rcases htaken with hnamed | ⟨-, nt, hnt, em', hnamed, mt, hmt, hem, hem'⟩
      · obtain ⟨m, hm, hanc⟩ := exists_head_around (mem_lifted.mpr ⟨em, hkey, hreach em, rfl⟩)
        have hm' := AliasTree.isEstimateAncestor_trans hanc (AliasTree.liftTo_ancestor _ em)
        exact ⟨m, hm, hm', em, hnamed, hm'⟩
      · exact ⟨mt.memory, ((houtcome nt hnt).heads _).mp (List.mem_map_of_mem hmt), hem, em', hnamed,
          hem'⟩
    obtain ⟨m, hm, hem, em', hnamed, hem'⟩ := hjoined
    have hkey' : em' ∈ l.explicit.keys := (noted.keys em').mpr (.inl hnamed)
    refine ⟨hkey, m, hm, (haround hm hkey).mpr hem, (touched_verdict_iff noted w hm).mpr ?_⟩
    exact ⟨em', hkey', (haround hm hkey').mpr hem', hnamed⟩

end Resolved

end Scope

variable {settings : Settings} {f : Function} {t : AliasTree} {loop : Loop}
  {depends : DependenceOracle} {modRef : ModRefOracle} {result : LoopResult}

/-- A node is covered exactly if it is a node of estimates with a result and what coverage takes for
accessed spans it. If none of its memory is taken for accessed only because its address escapes, it
is covered exactly if the memory the loop accesses by name spans it. -/
theorem mem_coveredNodes_iff (grown : t.Grown)
    (h : classifyLoop settings f t loop depends modRef = .ok result) :
    ∃ s d l, Stages settings f t loop depends modRef s d l ∧ ∀ n,
      (n ∈ (s.propagate l ∅).1.coveredNodes t (s.propagate l ∅).2 ↔
        (∃ node, t.node? n = some node ∧ node.kind = .estimate)
          ∧ (result.traits.get? n).isSome = true
          ∧ t.SpannedBy n (s.TakenForAccessed result.traits))
      ∧ ((∀ em, t.home em = n → s.TakenForAccessed result.traits em → s.named em = true) →
        (n ∈ (s.propagate l ∅).1.coveredNodes t (s.propagate l ∅).2 ↔
          (∃ node, t.node? n = some node ∧ node.kind = .estimate)
            ∧ (result.traits.get? n).isSome = true
            ∧ t.SpannedBy n fun em => s.named em = true)) := by
  obtain ⟨s, d, l, st, rfl⟩ := classifyLoop_eq_ok.mp h
  obtain ⟨-, rfl, -, -, -⟩ := Scope.ofLoop_eq_ok st.scope
  have w := grown.wellFormed
  refine ⟨s, d, l, st, fun n => ?_⟩
  -- The three conditions of coverage are each restated for the result of the loop.
  have htaken (em : EstimateId) : em ∈ (s.propagate l ∅).1.explicitlyAccessed
      ↔ s.TakenForAccessed (s.finish l settings).traits em :=
    Scope.mem_explicitlyAccessed_iff w st.ledger settings
  have hresult : ((s.finish l settings).traits.get? n).isSome = true
      ↔ (s.propagate l ∅).2.contains n = true := by
    rw [Scope.get?_finish, Option.isSome_map, Option.isSome_iff_exists,
      ← OrderedMap.mem_keys_iff]
    exact decide_eq_true_iff.symm
  have hspanned : s.tree.isSpanned (s.propagate l ∅).1.explicitlyAccessed n = true
      ↔ s.tree.SpannedBy n (s.TakenForAccessed (s.finish l settings).traits) := by
    rw [AliasTree.isSpanned_iff fun em hem => Scope.index_lt_of_tracked
      (((htaken em).mp hem).imp_right And.left)]
    exact ⟨fun h => h.imp fun em _ => (htaken em).mp, fun h => h.imp fun em _ => (htaken em).mpr⟩
  have hcovered : n ∈ (s.propagate l ∅).1.coveredNodes s.tree (s.propagate l ∅).2 ↔
      (∃ node, s.tree.node? n = some node ∧ node.kind = .estimate)
        ∧ ((s.finish l settings).traits.get? n).isSome = true
        ∧ s.tree.SpannedBy n (s.TakenForAccessed (s.finish l settings).traits) := by
    rw [Ledger.mem_coveredNodes, hspanned, hresult]
  refine ⟨hcovered, fun honly => hcovered.trans ?_⟩
  refine and_congr_right fun _ => and_congr_right fun _ => ?_
  exact ⟨fun h => h.imp honly, fun h => h.imp fun em _ => .inl⟩

/-- The loop over the object and its part accesses all of the object, and so covers its node. -/
theorem mem_coveredNodes_iff_nested :
    ∃ result s d l, nestedTree.Grown ∧ nestedResult = .ok result
      ∧ Stages {} nestedFunction nestedTree twoBlocks (fun _ _ _ => none) nestedFunction.modRef s d l
      ∧ ⟨1⟩ ∈ (s.propagate l ∅).1.coveredNodes nestedTree (s.propagate l ∅).2
      ∧ nestedTree.SpannedBy ⟨1⟩ fun em => s.named em = true := by
  have grown : nestedTree.Grown := AliasTree.grown_ofAdditions _
  obtain ⟨result, hresult⟩ := exists_of_isOk (x := nestedResult) (by decide +kernel)
  obtain ⟨s, d, l, st, hcovered⟩ := mem_coveredNodes_iff grown hresult
  obtain rfl : s = nestedScope := st.scope_eq rfl
  have heval := st.eval (fun l =>
      ((nestedScope.propagate l ∅).1.explicitlyAccessed.filter fun em => nestedTree.home em == ⟨1⟩,
        (nestedScope.propagate l ∅).2.contains ⟨1⟩)) (a := ([⟨0⟩], true)) (by decide +kernel)
  obtain ⟨hpieces, hcontains⟩ := Prod.mk.inj heval
  have hmem := coveredNodes_nestedTree hpieces hcontains
  -- No address is taken in the loop, so nothing but accesses by name counts.
  have hnone (em : EstimateId) (_ : nestedTree.home em = ⟨1⟩)
      (htaken : nestedScope.TakenForAccessed result.traits em) : nestedScope.named em = true :=
    htaken.resolve_right fun h => Bool.false_ne_true h.1
  exact ⟨result, nestedScope, d, l, grown, hresult, st, hmem, (((hcovered ⟨1⟩).2 hnone).mp hmem).2.2⟩

/-! The halves once more. The loop writes the lower one and takes the address of the upper one. -/

def escapingHalfFunction : Function where
  name := "escaping"
  values := #[⟨"s", .alloca ⟨0⟩, none⟩, ⟨"lo", .other, none⟩, ⟨"hi", .other, none⟩]
  instructions := #[⟨⟨0⟩, ⟨2⟩, .store ⟨⟨1⟩, some 4⟩ none⟩, ⟨⟨1⟩, ⟨2⟩, .pointerToInteger ⟨2⟩⟩]
  aliasTree := some halvesTree
  defUse := OrderedMap.empty.insert ⟨0⟩
    { explicit := [⟨⟨1⟩, some 4⟩], addresses := [⟨2⟩], defs := .ofList [⟨⟨1⟩, some 4⟩] }
  reach := (OrderedMap.empty.insert ⟨0⟩ ⟨∅, ∅⟩).insert ⟨1⟩ ⟨∅, ∅⟩
  live := OrderedMap.empty.insert ⟨0⟩ ∅

def escapingHalfScope : Scope where
  function := escapingHalfFunction
  tree := halvesTree
  loop := twoBlocks
  defUse :=
    { explicit := [⟨⟨1⟩, some 4⟩], addresses := [⟨2⟩], defs := .ofList [⟨⟨1⟩, some 4⟩] }
  live := ∅
  latch := ⟨∅, ∅⟩
  exit := ⟨∅, ∅⟩

def escapingHalfResult : Except ClassifyError LoopResult :=
  classifyLoop {} escapingHalfFunction halvesTree twoBlocks (fun _ _ _ => none)
    escapingHalfFunction.modRef

/-- The node of the object is found to be covered, although the loop accesses only half of it. -/
theorem coveredNodes_escapingHalf :
    ∃ result s d l, halvesTree.Grown ∧ escapingHalfResult = .ok result
      ∧ Stages {} escapingHalfFunction halvesTree twoBlocks (fun _ _ _ => none)
        escapingHalfFunction.modRef s d l
      ∧ ⟨1⟩ ∈ (s.propagate l ∅).1.coveredNodes halvesTree (s.propagate l ∅).2
      ∧ ¬halvesTree.SpannedBy ⟨1⟩ fun em => s.named em = true := by
  have grown : halvesTree.Grown := AliasTree.grown_ofAdditions _
  obtain ⟨result, hresult⟩ := exists_of_isOk (x := escapingHalfResult) (by decide +kernel)
  obtain ⟨s, d, l, st, -⟩ := classifyLoop_eq_ok.mp hresult
  obtain rfl : s = escapingHalfScope := st.scope_eq rfl
  have heval := st.eval (fun l =>
      ((escapingHalfScope.propagate l ∅).1.explicitlyAccessed.filter fun em =>
        halvesTree.home em == ⟨1⟩, (escapingHalfScope.propagate l ∅).2.contains ⟨1⟩))
    (a := ([⟨1⟩, ⟨2⟩], true)) (by decide +kernel)
  obtain ⟨hpieces, hcontains⟩ := Prod.mk.inj heval
  have hroots : halvesTree.nodeRoots ⟨1⟩ = [⟨0⟩] := by decide +kernel
  refine ⟨result, escapingHalfScope, d, l, grown, hresult, st, ?_, fun hspanned => ?_⟩
  · have hnode : halvesTree.node? ⟨1⟩ = some ⟨.estimate, some ⟨0⟩⟩ := by decide +kernel
    refine Ledger.mem_coveredNodes.mpr ⟨⟨_, hnode, rfl⟩, hcontains, ?_⟩
    rw [AliasTree.isSpanned_of_nodeRoots hroots, hpieces]
    exact covers_halvesTree
  · -- The fifth byte lies in no memory that is accessed by name.
    have hobject : halvesTree.estimate? ⟨0⟩ = some ⟨⟨0⟩, [], some 8, 0, none, ⟨1⟩⟩ := by
      decide +kernel
    have hlo : halvesTree.estimate? ⟨1⟩ = some ⟨⟨1⟩, [], some 4, 0, some ⟨0⟩, ⟨1⟩⟩ := by
      decide +kernel
    obtain ⟨em, part, ⟨hnamed, -⟩, hpart, hbyte⟩ := hspanned.bytes ⟨0⟩
      (hroots ▸ List.mem_cons_self) _ hobject 4 (by decide)
    obtain ⟨loc, hloc, hlocates⟩ := List.any_eq_true.mp hnamed
    have hfind : halvesTree.find? ⟨⟨1⟩, some 4⟩ = some ⟨1⟩ := by decide +kernel
    obtain rfl : loc = ⟨⟨1⟩, some 4⟩ := List.mem_singleton.mp hloc
    obtain rfl : ⟨1⟩ = em := Option.some.inj (hfind.symm.trans (Scope.locates_iff.mp hlocates))
    rw [Option.some.inj (hpart.symm.trans hlo)] at hbyte
    exact absurd hbyte (by decide)

end Privatization
