import Privatization.Proofs.Alias.Cover
import Privatization.Proofs.Classification.Outcome

/-!
# Forced dependences

What coverage leaves of the results of the propagation (`forced_below_covered`). Below a covered
node everything is a full dependence, markers apart, or the node is one untouched memory; any other
node keeps its result. However many covered nodes lie around a node, its result is the stored one
reclassified once, so all that is left to know is what counts as untouched: the propagation stores
that only for a node which is reported as its one memory (`propagate_whole`).
-/

namespace Privatization

/-! ## Reclassified categories -/

/-- Whatever the categories were, the full dependence is left of them. -/
theorem FlagSet.toDependency_sdiff_markers (c : Categories) :
    FlagSet.toDependency c \ Categories.markers = Categories.dependency := by
  refine FlagSet.ext fun a => ?_
  rw [has_sdiff, has_toDependency]
  cases c.has a <;> cases a <;> decide

/-- The markers stay as they were. -/
theorem FlagSet.toDependency_inter_markers (c : Categories) :
    FlagSet.toDependency c ∩ Categories.markers = c ∩ Categories.markers := by
  refine FlagSet.ext fun a => ?_
  rw [has_inter, has_inter, has_toDependency]
  cases c.has a <;> cases a <;> decide

/-- A value that decodes to untouched memory decodes to nothing else, an escaping address apart. -/
theorem Trait.categories_of_noAccess {v : Trait} (h : v.categories.has .noAccess = true) :
    v.categories \ Categories.markers = {.noAccess} := by
  decide +revert

/-! ## Untouched nodes -/

namespace NodeTrait

/-- Everything that is reported at a node: its categories, and those of its constituents. -/
def reports (nt : NodeTrait) : List Categories :=
  nt.categories :: nt.memories.map (·.categories) ++ nt.unknowns.map (·.categories)

/-- A node that counts as untouched is reported as its one memory. -/
def Whole (nt : NodeTrait) : Prop :=
  nt.categories.has .noAccess = true →
    nt.unknowns = [] ∧ ∃ mt, nt.memories = [mt] ∧ mt.categories = nt.categories

end NodeTrait

namespace Scope

variable {s : Scope} {l : Ledger} {n : AliasNodeId} {traits : TraitMap}

/-- A node with several constituents never counts as untouched. -/
theorem mixedTrait_whole (l : Ledger) (n : AliasNodeId) (entries : List EntryId)
    (unknowns : List UnknownEntryId) : (s.mixedTrait l n entries unknowns).2.Whole := by
  -- The summary of several constituents leaves untouched out.
  intro hno
  have hsummary := Trait.has_noAccess_summary
    (unknowns.foldl (addUnknown n) (entries.foldl (s.addMemory n) { ledger := l })).combined
  change FlagSet.has (if _ then _ else _) _ = true at hno
  split at hno
  · rw [FlagSet.has_union, hsummary, FlagSet.has_singleton] at hno
    cases hno
  · rw [hsummary] at hno
    cases hno

/-- Recording the result of a node keeps all results whole if the new one is. -/
theorem record_whole {nt : NodeTrait} (h : ∀ k nt, traits.get? k = some nt → nt.Whole)
    (hnt : nt.Whole) : ∀ k nt', (traits.record nt).get? k = some nt' → nt'.Whole := by
  intro k nt' hget
  by_cases hk : k = nt.node
  · subst hk
    rw [TraitMap.record, OrderedMap.get?_insert_self] at hget
    exact Option.some.inj hget ▸ hnt
  · rw [TraitMap.record, OrderedMap.get?_insert_of_ne _ _ hk] at hget
    exact h k nt' hget

/-- The results stored for one node are whole: a single memory is listed under the categories of its
node, and several constituents never count as untouched. -/
theorem storeResults_whole (h : ∀ k nt, traits.get? k = some nt → nt.Whole)
    (entries : List EntryId) (unknowns : List UnknownEntryId) (l : Ledger) :
    ∀ k nt, (s.storeResults n entries unknowns l traits).2.get? k = some nt → nt.Whole := by
  unfold storeResults
  split
  · exact h
  · split
    next mt explicit hmt =>
      exact record_whole h fun _ => ⟨rfl, mt, rfl, rfl⟩
    next => exact h
  · exact record_whole h (mixedTrait_whole _ _ _ _)

/-- Every result that the propagation stores is whole. -/
theorem propagate_whole (s : Scope) (l : Ledger) :
    ∀ k nt, (s.propagate l ∅).2.get? k = some nt → nt.Whole := by
  unfold propagate
  refine List.foldlRecOn
    (motive := fun r : Ledger × TraitMap => ∀ k nt, r.2.get? k = some nt → nt.Whole) _ _ ?_ ?_
  · intro k nt hget
    cases hget
  · intro r hr n _
    exact storeResults_whole hr _ _ _

end Scope

/-! ## What coverage leaves -/

/-- `after` is what becomes of `before` below a covered node. -/
structure NodeTrait.ForcedTo (before after : NodeTrait) : Prop where
  memories : after.memories.map (fun mt => (mt.memory, mt.dependence))
    = before.memories.map fun mt => (mt.memory, mt.dependence)
  unknowns : after.unknowns.map (·.inst) = before.unknowns.map (·.inst)
  /-- Nothing milder than a dependence is reported. -/
  strict : ∀ c ∈ after.reports,
    c.meets ({.readonly, .shared} ∪ Categories.anyPrivate) = false
  /-- A touched node becomes a full dependence, and an untouched one is left as it is. -/
  exact : (before.categories.has .noAccess = false
      ∧ ∀ c ∈ after.reports, c \ Categories.markers = Categories.dependency)
    ∨ after = before ∧ after.unknowns = [] ∧ ∃ mt, after.memories = [mt]
      ∧ ∀ c ∈ after.reports, c \ Categories.markers = {.noAccess}
  markers : after.reports.map (· ∩ Categories.markers)
    = before.reports.map (· ∩ Categories.markers)

namespace NodeTrait

/-- Reclassifying a node reclassifies everything that is reported there. -/
theorem reports_toDependency (nt : NodeTrait) :
    nt.toDependency.reports = nt.reports.map FlagSet.toDependency := by
  unfold reports toDependency
  simp only [List.map_cons, List.map_append, List.map_map, Function.comp_def, List.cons_append]

/-- Full dependences and untouched memory are in none of the milder categories. -/
theorem meets_milder_eq_false {c : Categories}
    (h : c \ Categories.markers = Categories.dependency ∨ c \ Categories.markers = {.noAccess}) :
    c.meets ({.readonly, .shared} ∪ Categories.anyPrivate) = false := by
  rw [Bool.eq_false_iff]
  intro hmeets
  obtain ⟨a, ha, hmilder⟩ := FlagSet.meets_iff.mp hmeets
  -- A milder category is no marker and part of neither, so it would be left over.
  have hmarker : Categories.markers.has a = false ∧ Categories.dependency.has a = false
      ∧ ({.noAccess} : Categories).has a = false := by
    revert hmilder
    cases a <;> decide
  have hleft : (c \ Categories.markers).has a = true := by
    rw [FlagSet.has_sdiff, ha, hmarker.1]
    rfl
  rcases h with h | h
  · rw [h, hmarker.2.1] at hleft
    cases hleft
  · rw [h, hmarker.2.2] at hleft
    cases hleft

/-- A touched node that is reclassified is forced. -/
theorem forcedTo_toDependency {nt : NodeTrait} (h : nt.categories.has .noAccess = false) :
    nt.ForcedTo nt.toDependency := by
  have hexact : ∀ c ∈ nt.toDependency.reports, c \ Categories.markers = Categories.dependency := by
    rw [reports_toDependency]
    intro c hc
    obtain ⟨c, -, rfl⟩ := List.mem_map.mp hc
    exact FlagSet.toDependency_sdiff_markers c
  constructor
  case memories => exact List.map_map
  case unknowns => exact List.map_map
  case strict => exact fun c hc => meets_milder_eq_false (.inl (hexact c hc))
  case exact => exact .inl ⟨h, hexact⟩
  case markers =>
    rw [reports_toDependency, List.map_map]
    exact List.map_congr_left fun c _ => FlagSet.toDependency_inter_markers c

/-- An untouched node that is reported as its one memory is forced as it stands. -/
theorem forcedTo_self {nt : NodeTrait} {mt : MemoryTrait} (hunknowns : nt.unknowns = [])
    (hmemories : nt.memories = [mt]) (hsame : mt.categories = nt.categories)
    (hno : nt.categories \ Categories.markers = {.noAccess}) : nt.ForcedTo nt := by
  have hall : ∀ c ∈ nt.reports, c \ Categories.markers = {.noAccess} := by
    unfold reports
    rw [hunknowns, hmemories]
    intro c hc
    simp only [List.map_cons, List.map_nil, List.append_nil, List.mem_cons, List.not_mem_nil,
      or_false, hsame, or_self] at hc
    rw [hc]
    exact hno
  exact ⟨rfl, rfl, fun c hc => meets_milder_eq_false (.inr (hall c hc)),
    .inr ⟨rfl, hunknowns, mt, hmemories, hall⟩, rfl⟩

/-- What was touched is forced to a dependence with everything in it. -/
theorem ForcedTo.dependency_of_touched {before after : NodeTrait} (h : before.ForcedTo after)
    (touched : before.categories.has .noAccess = false) :
    ∀ c ∈ after.reports, c \ Categories.markers = Categories.dependency := by
  rcases h.exact with ⟨-, hexact⟩ | ⟨hsame, -, mt, -, hno⟩
  · exact hexact
  · -- Untouched, the node would be reported so.
    have hnode := hno _ List.mem_cons_self
    rw [hsame] at hnode
    have hnot : (before.categories \ Categories.markers).has .noAccess = false := by
      rw [FlagSet.has_sdiff, touched]
      rfl
    rw [hnode] at hnot
    exact absurd hnot (by decide)

end NodeTrait

namespace Scope

variable {s : Scope} {l : Ledger} {d : DependenceMap} {n : AliasNodeId} {nt : NodeTrait}

/-- A listed memory that counts as untouched is reported as nothing else, markers apart. -/
theorem Listed.sdiff_markers {mt : MemoryTrait} (h : s.Listed l n nt) (hmt : mt ∈ nt.memories)
    (hno : mt.categories.has .noAccess = true) :
    mt.categories \ Categories.markers = {.noAccess} := by
  have hverdict := h.verdict mt hmt
  have hplain : (s.verdict l n mt.memory).categories.has .noAccess = true := by
    rw [← hverdict, FlagSet.has_sdiff_explicit _ (by decide)]
    exact hno
  -- The verdict is known up to the mark for explicit accesses, which is one of the markers.
  have hmarkers : mt.categories \ Categories.markers
      = (mt.categories \ {.explicitAccess}) \ Categories.markers := by
    refine FlagSet.ext fun a => ?_
    simp only [FlagSet.has_sdiff]
    cases mt.categories.has a <;> cases a <;> decide
  rw [hmarkers, hverdict]
  exact Trait.categories_of_noAccess hplain

/-- Reclassifying a stored result once forces it, whether or not it was touched. -/
theorem Listed.forcedTo (h : s.Listed l n nt) (hwhole : nt.Whole) : nt.ForcedTo nt.forced := by
  unfold NodeTrait.forced
  split
  next hno =>
    obtain ⟨hunknowns, mt, hmemories, hsame⟩ := hwhole hno
    have hmt : mt ∈ nt.memories := hmemories ▸ List.mem_singleton.mpr rfl
    refine NodeTrait.forcedTo_self hunknowns hmemories hsame (hsame ▸ h.sdiff_markers hmt ?_)
    exact hsame ▸ hno
  next hno => exact NodeTrait.forcedTo_toDependency (Bool.eq_false_iff.mpr hno)

end Scope

variable {settings : Settings} {f : Function} {t : AliasTree} {loop : Loop}
  {depends : DependenceOracle} {modRef : ModRefOracle} {result : LoopResult}

/-- A classified loop reports, for a node strictly below a covered one, what the stored result is
forced to, and for every other node the stored result. -/
theorem forced_below_covered (grown : t.Grown)
    (h : classifyLoop settings f t loop depends modRef = .ok result) :
    ∃ s d l, Stages settings f t loop depends modRef s d l ∧
      ∀ n, (∀ c ∈ (s.propagate l ∅).1.coveredNodes t (s.propagate l ∅).2,
          t.isNodeAncestor c n = true → c ≠ n → ∀ nt, result.traits.get? n = some nt →
            ∃ stored, (s.propagate l ∅).2.get? n = some stored ∧ stored.ForcedTo nt)
        ∧ ((∀ c ∈ (s.propagate l ∅).1.coveredNodes t (s.propagate l ∅).2,
          t.isNodeAncestor c n = true → c = n) →
            result.traits.get? n = (s.propagate l ∅).2.get? n) := by
  obtain ⟨s, d, l, st, rfl⟩ := classifyLoop_eq_ok.mp h
  obtain ⟨-, rfl, -, -, -⟩ := Scope.ofLoop_eq_ok st.scope
  have noted := Scope.noted_resolve st.ledger
  refine ⟨s, d, l, st, fun n => ?_⟩
  have hget := Scope.get?_finish s l settings n
  constructor
  · intro c hc hbelow hne nt hnt
    -- The covered node above overrules what was stored here.
    have hoverruled : s.overruled l n = true :=
      List.any_eq_true.mpr ⟨c, hc, by rw [hbelow, decide_eq_true hne]; rfl⟩
    rw [hget, hoverruled] at hnt
    obtain ⟨stored, hstored, rfl⟩ := Option.map_eq_some_iff.mp hnt
    have hreported := Scope.propagate_reported grown.wellFormed noted.fresh
      (fun x hx => noted.node_lt grown.wellFormed hx) n
    exact ⟨stored, hstored,
      (hreported.listed stored hstored).forcedTo (Scope.propagate_whole s l n stored hstored)⟩
  · -- No covered node lies strictly above, so coverage passes this node by.
    intro hnone
    have hoverruled : s.overruled l n = false := by
      refine List.any_eq_false.mpr fun c hc hbelow => ?_
      rw [Bool.and_eq_true, decide_eq_true_iff] at hbelow
      exact hbelow.2 (hnone c hc hbelow.1)
    rw [hget, hoverruled]
    cases (s.propagate l ∅).2.get? n <;> rfl

/-! An object at one node and a part of it at a node below. A loop writes the object and then the
part. -/

/-- The locations of the object and of its part. -/
def wholeAndPart : List MemoryLocation := [⟨⟨0⟩, some 8⟩, ⟨⟨1⟩, some 4⟩]

/-- The part is an estimate memory inside the object, and its node lies below the object's. -/
def nestedTree : AliasTree := .ofAdditions [
  .node AliasTree.top .estimate, .node ⟨1⟩ .estimate,
  .estimate ⟨1⟩ [⟨0⟩] (some 8) 0 none, .estimate ⟨2⟩ [⟨1⟩] (some 4) 0 (some ⟨0⟩)]

/-- Two stores, and no dependence is recorded. -/
def nestedFunction : Function where
  name := "nested"
  values := #[⟨"s", .alloca ⟨0⟩, none⟩, ⟨"lo", .other, none⟩]
  instructions := #[⟨⟨0⟩, ⟨2⟩, .store ⟨⟨0⟩, some 8⟩ none⟩, ⟨⟨1⟩, ⟨2⟩, .store ⟨⟨1⟩, some 4⟩ none⟩]
  aliasTree := some nestedTree
  defUse := OrderedMap.empty.insert ⟨0⟩ { explicit := wholeAndPart, defs := .ofList wholeAndPart }
  reach := (OrderedMap.empty.insert ⟨0⟩ ⟨∅, ∅⟩).insert ⟨1⟩ ⟨∅, ∅⟩
  live := OrderedMap.empty.insert ⟨0⟩ ∅

/-- What is known of the loop. -/
def nestedScope : Scope where
  function := nestedFunction
  tree := nestedTree
  loop := twoBlocks
  defUse := { explicit := wholeAndPart, defs := .ofList wholeAndPart }
  live := ∅
  latch := ⟨∅, ∅⟩
  exit := ⟨∅, ∅⟩

/-- The classification of the loop. -/
def nestedResult : Except ClassifyError LoopResult :=
  classifyLoop {} nestedFunction nestedTree twoBlocks (fun _ _ _ => none) nestedFunction.modRef

/-- The object is the one root at its node, and it was accessed as a whole. -/
theorem coveredNodes_nestedTree {l : Ledger} {traits : TraitMap}
    (hpieces : (l.explicitlyAccessed.filter fun em => nestedTree.home em == ⟨1⟩) = [⟨0⟩])
    (hcontains : traits.contains ⟨1⟩ = true) : ⟨1⟩ ∈ l.coveredNodes nestedTree traits := by
  have hnode : nestedTree.node? ⟨1⟩ = some ⟨.estimate, some ⟨0⟩⟩ := by decide +kernel
  have hroots : nestedTree.nodeRoots ⟨1⟩ = [⟨0⟩] := by decide +kernel
  have hobject : nestedTree.estimate? ⟨0⟩ = some ⟨⟨0⟩, [], some 8, 0, none, ⟨1⟩⟩ := by
    decide +kernel
  refine Ledger.mem_coveredNodes.mpr ⟨⟨_, hnode, rfl⟩, hcontains, ?_⟩
  rw [AliasTree.isSpanned_of_nodeRoots hroots, hpieces]
  exact AliasTree.covers_self hobject List.mem_cons_self

/-- The node of the object is covered, so the part below it is a full dependence. -/
theorem forced_below_covered_nested :
    ∃ result s d l, nestedTree.Grown ∧ nestedResult = .ok result
      ∧ Stages {} nestedFunction nestedTree twoBlocks (fun _ _ _ => none) nestedFunction.modRef s d l
      ∧ ⟨1⟩ ∈ (s.propagate l ∅).1.coveredNodes nestedTree (s.propagate l ∅).2
      ∧ ∃ nt stored, result.traits.get? ⟨2⟩ = some nt
        ∧ (s.propagate l ∅).2.get? ⟨2⟩ = some stored ∧ stored.ForcedTo nt
        ∧ nt.categories \ Categories.markers = Categories.dependency := by
  have grown : nestedTree.Grown := AliasTree.grown_ofAdditions _
  obtain ⟨result, hresult⟩ := exists_of_isOk (x := nestedResult) (by decide +kernel)
  obtain ⟨s', d', l', st', hforced⟩ := forced_below_covered grown hresult
  obtain ⟨s, d, l, st, rfl⟩ := classifyLoop_eq_ok.mp hresult
  obtain rfl : s' = s := Except.ok.inj (st'.scope.symm.trans st.scope)
  obtain rfl : d' = d := Except.ok.inj (st'.dependences.symm.trans st.dependences)
  obtain rfl : l' = l := Except.ok.inj (st'.ledger.symm.trans st.ledger)
  have hscope : Scope.ofLoop nestedFunction nestedTree twoBlocks = .ok nestedScope := rfl
  obtain rfl : s' = nestedScope := Except.ok.inj (st.scope.symm.trans hscope)
  -- What the propagation leaves can be computed, and of coverage the pieces it looks at.
  have heval := st.eval (fun l =>
      ((nestedScope.propagate l ∅).1.explicitlyAccessed.filter fun em => nestedTree.home em == ⟨1⟩,
        (nestedScope.propagate l ∅).2.contains ⟨1⟩,
        ((nestedScope.propagate l ∅).2.get? ⟨2⟩).map fun nt => nt.categories.has .noAccess))
    (a := ([⟨0⟩], true, some false)) (by decide +kernel)
  rw [Prod.mk.injEq, Prod.mk.injEq] at heval
  obtain ⟨hpieces, hcontains, htouched⟩ := heval
  have hcovered := coveredNodes_nestedTree hpieces hcontains
  obtain ⟨stored, hstored, htouched⟩ := Option.map_eq_some_iff.mp htouched
  have hget := Scope.get?_finish nestedScope l' {} ⟨2⟩
  rw [hstored] at hget
  obtain ⟨stored', hstored', hforcedTo⟩ :=
    (hforced ⟨2⟩).1 ⟨1⟩ hcovered (by decide +kernel) (by decide) _ hget
  obtain rfl : stored = stored' := Option.some.inj (hstored.symm.trans hstored')
  exact ⟨_, _, d', l', grown, hresult, st, hcovered, _, stored, hget, hstored, hforcedTo,
    hforcedTo.dependency_of_touched htouched _ List.mem_cons_self⟩

end Privatization
