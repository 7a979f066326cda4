import Privatization.Proofs.Classification.Forcing
import Privatization.Proofs.Propagation.Recorded
import Privatization.Proofs.Propagation.Values
import Privatization.Proofs.Resolution.Evidence

/-!
# What is reported of memory and of nodes

The categories in the result of a loop. Markers left out, memory is reported under one of ten sets
and an unknown access under one of two (`categories_exclusive`): the values that would be reported
otherwise never come up (`Trait.regular`), and coverage only makes full dependences. A node with one
memory and nothing else is reported as that memory, and any other node as read only or as a full
dependence (`summarized_of_classifyLoop`). That sharing is never the summary of several constituents
is due to regular values again: what is shared was written by one of them.
-/

namespace Privatization

/-! ## Marked categories -/

namespace Scope

theorem has_mark (b : Bool) (c : Categories) (a : Category) :
    (mark b c).has a = (c.has a || (b && decide (a = .explicitAccess))) := by
  cases b with
  | false => rw [Bool.false_and, Bool.or_false]; rfl
  | true =>
    show (c ∪ {.explicitAccess}).has a = _
    rw [FlagSet.has_union, FlagSet.has_singleton, Bool.true_and]
    cases a <;> rfl

/-- The mark of an explicit access is one of the markers. -/
theorem mark_sdiff_markers (b : Bool) (c : Categories) :
    mark b c \ Categories.markers = c \ Categories.markers := by
  refine FlagSet.ext fun a => ?_
  rw [FlagSet.has_sdiff, FlagSet.has_sdiff, has_mark]
  cases c.has a <;> cases b <;> cases a <;> decide

/-- What a part of a node is reported as: its value, with or without a mark. -/
def partReport (p : Bool × Trait) : Categories := mark p.1 p.2.categories

variable {p : Bool × Trait}

/-- Without its markers a member is reported as readonly exactly if its value is. -/
theorem partReport_readonly :
    partReport p \ Categories.markers = {.readonly} ↔ p.2.is .readonly = true := by
  rw [partReport, mark_sdiff_markers, Trait.categories_eq_readonly]

/-- A member of which nothing but reads is known is reported as readonly or as not accessed. -/
theorem partReport_onlyRead : partReport p \ Categories.markers = {.readonly}
    ∨ partReport p \ Categories.markers = {.noAccess} ↔ p.2.onlyRead = true := by
  rw [partReport, mark_sdiff_markers, Trait.categories_eq_readonly, Trait.categories_eq_noAccess,
    ← Bool.or_eq_true]
  rfl

/-- Of the markers, an escaping address comes from the value and an explicit access
from the mark. -/
theorem has_partReport {a : Category} (ha : a ∈ Categories.markers) : (partReport p).has a
    = if a = .addressAccess then p.2.addressAccess else p.1 := by
  have hkind : a = .addressAccess ∨ a = .explicitAccess := by
    revert ha
    cases a <;> decide
  rw [partReport, has_mark]
  rcases hkind with rfl | rfl
  · simp [Trait.has_addressAccess]
  · simp [Trait.has_explicitAccess]

end Scope

/-! ## Reclassified categories -/

/-- Memory that coverage reclassifies is reported as a dependence, touched or not. -/
theorem FlagSet.toDependency_ofMemory (c : Categories) :
    FlagSet.toDependency c \ Categories.markers ∈ Categories.ofMemory
      ∧ ((FlagSet.toDependency c).has .noAccess = true →
        (FlagSet.toDependency c).has .addressAccess = true) := by
  have hnone : (FlagSet.toDependency c).has .noAccess = false := by
    rw [has_toDependency, show Categories.markers.has .noAccess = false by decide, Bool.and_false]
    decide
  rw [toDependency_sdiff_markers, hnone]
  exact ⟨by decide, fun h => absurd h Bool.false_ne_true⟩

theorem FlagSet.toDependency_of_unknown {c : Categories} (h : c \ {.explicitAccess} = {.readonly}
    ∨ c \ {.explicitAccess} = Categories.dependency) :
    FlagSet.toDependency c \ {.explicitAccess} = Categories.dependency := by
  -- Of the markers that are kept, an unknown access has the explicit one at most.
  have haddress : c.has .addressAccess = false := by
    rw [← has_sdiff_explicit c (show Category.addressAccess ≠ .explicitAccess by decide)]
    rcases h with h | h <;> rw [h] <;> decide
  refine FlagSet.ext fun a => ?_
  rw [has_sdiff, has_toDependency]
  by_cases ha : a = .addressAccess
  · rw [ha, haddress]
    decide
  · revert ha
    cases c.has a <;> cases a <;> decide

/-! ## Summaries of nodes -/

namespace NodeTrait

/-- The categories of what a node lists. -/
def constituents (nt : NodeTrait) : List Categories :=
  nt.memories.map (·.categories) ++ nt.unknowns.map (·.categories)

/-- Whether a node lists anything but a single memory. -/
def Mixed (nt : NodeTrait) : Prop := nt.unknowns ≠ [] ∨ nt.memories.length ≠ 1

/-- What a node is reported as can be told from what it lists. -/
structure Summarized (nt : NodeTrait) : Prop where
  single : ∀ mt, nt.memories = [mt] → nt.unknowns = [] → nt.categories = mt.categories
  readonly : nt.Mixed → (nt.categories \ Categories.markers = {.readonly} ↔
    (∀ c ∈ nt.constituents,
        c \ Categories.markers = {.readonly} ∨ c \ Categories.markers = {.noAccess})
      ∧ ∃ c ∈ nt.constituents, c \ Categories.markers = {.readonly})
  dependency : nt.Mixed → nt.categories \ Categories.markers ≠ {.readonly} →
    nt.categories \ Categories.markers = Categories.dependency
  plain : nt.Mixed →
    nt.categories.meets ({.noAccess, .shared} ∪ Categories.anyPrivate) = false
  marked : ∀ a ∈ Categories.markers, a ∈ nt.categories ↔ ∃ c ∈ nt.constituents, a ∈ c

variable {nt : NodeTrait}

/-- A node that is read only or a dependence is nothing else. -/
theorem plain_of_dependency {c : Categories}
    (h : c \ Categories.markers ≠ {.readonly} → c \ Categories.markers = Categories.dependency) :
    c.meets ({.noAccess, .shared} ∪ Categories.anyPrivate) = false := by
  rw [Bool.eq_false_iff]
  intro hmeets
  obtain ⟨a, ha, hother⟩ := FlagSet.meets_iff.mp hmeets
  have hnone : Categories.markers.has a = false ∧ Categories.dependency.has a = false
      ∧ ({.readonly} : Categories).has a = false := by
    revert hother
    cases a <;> decide
  have hleft : (c \ Categories.markers).has a = true := by
    rw [FlagSet.has_sdiff, ha, hnone.1]
    rfl
  by_cases hread : c \ Categories.markers = {.readonly}
  · rw [hread, hnone.2.2] at hleft
    cases hleft
  · rw [h hread, hnone.2.1] at hleft
    cases hleft

theorem constituents_toDependency (nt : NodeTrait) :
    nt.toDependency.constituents = nt.constituents.map FlagSet.toDependency := by
  unfold constituents toDependency
  simp only [List.map_map, List.map_append, Function.comp_def]

theorem has_marker_toDependency {a : Category} (ha : a ∈ Categories.markers) (c : Categories) :
    a ∈ FlagSet.toDependency c ↔ a ∈ c := by
  have hmarker : Categories.markers.has a = true := ha
  have hnone : Categories.dependency.has a = false := by
    revert hmarker
    cases a <;> decide
  rw [FlagSet.mem_def, FlagSet.mem_def, FlagSet.has_toDependency, hmarker, hnone, Bool.and_true,
    Bool.or_false]

/-- Coverage leaves a summary a summary. -/
theorem Summarized.toDependency (h : nt.Summarized) : nt.toDependency.Summarized := by
  have hdependency : nt.toDependency.categories \ Categories.markers = Categories.dependency :=
    FlagSet.toDependency_sdiff_markers nt.categories
  have hread : Categories.dependency ≠ {.readonly} := by decide
  -- Every member and the node itself become full dependences, and markers stay where they were.
  constructor
  case single =>
    intro mt hmemories hunknowns
    obtain ⟨mt₀, hmt₀, rfl⟩ := List.map_eq_singleton_iff.mp hmemories
    exact congrArg FlagSet.toDependency (h.single mt₀ hmt₀ (List.map_eq_nil_iff.mp hunknowns))
  case readonly =>
    intro _
    rw [hdependency]
    refine ⟨fun h => absurd h hread, fun ⟨_, c, hc, hreadonly⟩ => ?_⟩
    rw [constituents_toDependency] at hc
    obtain ⟨c, -, rfl⟩ := List.mem_map.mp hc
    exact absurd ((FlagSet.toDependency_sdiff_markers c).symm.trans hreadonly) hread
  case dependency => exact fun _ _ => hdependency
  case plain => exact fun _ => plain_of_dependency fun _ => hdependency
  case marked =>
    intro a ha
    rw [constituents_toDependency]
    refine (has_marker_toDependency ha nt.categories).trans ((h.marked a ha).trans ?_)
    constructor
    · rintro ⟨c, hc, hac⟩
      exact ⟨_, List.mem_map.mpr ⟨c, hc, rfl⟩, (has_marker_toDependency ha c).mpr hac⟩
    · rintro ⟨c, hc, hac⟩
      obtain ⟨c, hc₀, rfl⟩ := List.mem_map.mp hc
      exact ⟨c, hc₀, (has_marker_toDependency ha c).mp hac⟩

/-- A node is summarized well if it is reported like the summary of a value that is read only, and
has an escaping address, as its parts are. -/
theorem summarized_of_parts {v : Trait} {parts : List (Bool × Trait)} (hregular : v.regular = true)
    (hread : v.is .readonly = (parts.all (·.2.onlyRead) && parts.any (·.2.is .readonly)))
    (haddress : v.addressAccess = parts.any (·.2.addressAccess))
    (hcategories : nt.categories = Scope.partReport (parts.any Prod.fst, v.meet v.summary))
    (hparts : nt.constituents.Perm (parts.map Scope.partReport)) (hmixed : nt.Mixed) :
    nt.Summarized := by
  have hvalue : nt.categories \ Categories.markers
      = if v.is .readonly then {.readonly} else Categories.dependency := by
    rw [hcategories, Scope.partReport, Scope.mark_sdiff_markers,
      Trait.categories_meet_summary hregular]
  have hreadonly : nt.categories \ Categories.markers = {.readonly} ↔ v.is .readonly = true := by
    rw [hvalue]
    cases v.is .readonly <;> decide
  have hdependency (hnot : nt.categories \ Categories.markers ≠ {.readonly}) :
      nt.categories \ Categories.markers = Categories.dependency := by
    rw [hvalue, if_neg fun h => hnot (hreadonly.mpr h)]
  have hall (p : Categories → Prop) :
      (∀ c ∈ nt.constituents, p c) ↔ ∀ part ∈ parts, p (Scope.partReport part) := by
    simp only [hparts.mem_iff, List.forall_mem_map]
  have hany (p : Categories → Prop) :
      (∃ c ∈ nt.constituents, p c) ↔ ∃ part ∈ parts, p (Scope.partReport part) := by
    simp only [hparts.mem_iff, List.mem_map, exists_exists_and_eq_and]
  constructor
  case single =>
    intro mt hmemories hunknowns
    rcases hmixed with h | h
    · exact absurd hunknowns h
    · rw [hmemories] at h
      exact absurd rfl h
  case readonly =>
    intro _
    rw [hreadonly, hread, Bool.and_eq_true, List.all_eq_true, List.any_eq_true, hall, hany]
    refine and_congr (forall₂_congr fun part _ => Scope.partReport_onlyRead.symm) ?_
    exact exists_congr fun part => and_congr_right fun _ => Scope.partReport_readonly.symm
  case dependency => exact fun _ => hdependency
  case plain => exact fun _ => plain_of_dependency hdependency
  case marked =>
    intro a ha
    rw [hany fun c => a ∈ c]
    simp only [FlagSet.mem_def, hcategories, Scope.has_partReport ha]
    -- Of the two markers, one comes from the value of a part and one from its mark.
    by_cases haddr : a = .addressAccess
    · simp only [if_pos haddr, Trait.addressAccess_meet_summary, haddress, List.any_eq_true]
    · simp only [if_neg haddr, List.any_eq_true]

end NodeTrait

namespace Scope

variable {s : Scope} {l : Ledger} {d : DependenceMap} {n : AliasNodeId} {nt : NodeTrait}
  {ms : List EstimateId} {us : List UnknownEntry}

/-! ## What a node lists -/

/-- Unknown accesses only read, or they are dependences. -/
theorem value_of_mem_unknowns (h : s.resolve { dependences := d } = .ok l) {x : UnknownEntry}
    (hx : x ∈ l.unknowns.toList) : x.value = .readonly ∨ x.value = .dependency := by
  rw [unknowns_resolve h] at hx
  obtain ⟨inst, -, hentry⟩ := List.mem_filterMap.mp hx
  obtain ⟨node, -, rfl⟩ := Option.map_eq_some_iff.mp hentry
  show s.unknownTrait inst = _ ∨ s.unknownTrait inst = _
  unfold unknownTrait
  split
  · exact .inl rfl
  · exact .inr rfl

/-- What a node with the memories `ms` and the unknown accesses `us` is made of: values, with or
without the mark of an explicit access. -/
def parts (s : Scope) (l : Ledger) (n : AliasNodeId) (ms : List EstimateId)
    (us : List UnknownEntry) : List (Bool × Trait) :=
  (ms.map fun m => (s.marks l n m, s.verdict l n m)) ++ us.map fun x => (marksUnknown n x, x.value)

/-- The summary is readonly if all members are only read and one of them is readonly. -/
theorem is_readonly_summaryOf (hms : ∀ m ∈ ms, m ∈ s.heads l n) :
    (s.summaryOf l n ms us).is .readonly
      = ((s.parts l n ms us).all (·.2.onlyRead) && (s.parts l n ms us).any (·.2.is .readonly)) := by
  have hread : (ms.map (s.incoming l n)).all Trait.onlyRead
      = ms.all fun m => (s.verdict l n m).onlyRead := by
    rw [List.all_map]
    exact all_congr_of_mem fun m hm => onlyRead_incoming (hms m hm)
  have hreadonly : (ms.map (s.incoming l n)).any (·.is .readonly)
      = ms.any fun m => (s.verdict l n m).is .readonly := by
    rw [List.any_map]
    exact any_congr_of_mem fun m hm => is_readonly_incoming (hms m hm)
  unfold summaryOf parts
  rw [← Trait.meetAll_append, Trait.is_readonly_meetAll, List.all_append, List.any_append, hread,
    hreadonly, List.all_append, List.any_append, List.all_map, List.any_map, List.all_map,
    List.any_map, List.all_map, List.any_map]
  rfl

/-- The address escapes in the summary if it does in a member. -/
theorem addressAccess_summaryOf (hms : ∀ m ∈ ms, m ∈ s.heads l n) :
    (s.summaryOf l n ms us).addressAccess = (s.parts l n ms us).any (·.2.addressAccess) := by
  have haddress : (ms.map (s.incoming l n)).any (·.addressAccess)
      = ms.any fun m => (s.verdict l n m).addressAccess := by
    rw [List.any_map]
    exact any_congr_of_mem fun m hm => addressAccess_incoming (hms m hm)
  unfold summaryOf parts
  rw [← Trait.meetAll_append, Trait.addressAccess_meetAll, List.any_append, haddress,
    List.any_append, List.any_map, List.any_map, List.any_map]
  rfl

/-- The summary of regular values is regular. -/
theorem regular_summaryOf {named : EstimateId → Prop}
    (noted : Noted s d named (s.resolvedTrait d) l)
    (hus : ∀ x ∈ us, x.value = .readonly ∨ x.value = .dependency) :
    (s.summaryOf l n ms us).regular = true := by
  refine Trait.regular_meet (Trait.regular_meetAll fun v hv => ?_)
    (Trait.regular_meetAll fun v hv => ?_)
  · obtain ⟨m, -, rfl⟩ := List.mem_map.mp hv
    exact regular_incoming noted
  · obtain ⟨x, hx, rfl⟩ := List.mem_map.mp hv
    rcases hus x hx with h | h <;> rw [h] <;> rfl

/-! ## Stored results -/

namespace IsReport

/-- Each listed memory is the report on a head of the node. -/
theorem exists_memory (h : s.IsReport l n nt) {mt : MemoryTrait} (hmt : mt ∈ nt.memories) :
    ∃ m ∈ s.heads l n, mt = s.memoryReport l n m := by
  obtain ⟨m, hm, rfl⟩ := List.mem_map.mp (h.memories.mem_iff.mp hmt)
  exact ⟨m, mem_listed.mp hm, rfl⟩

/-- Each listed unknown access is the report on an entry of the ledger. -/
theorem exists_unknown (h : s.IsReport l n nt) {u : UnknownTrait} (hu : u ∈ nt.unknowns) :
    ∃ x ∈ l.unknowns.toList, u = unknownReport n x := by
  obtain ⟨x, hx, rfl⟩ := List.mem_map.mp (h.unknowns.mem_iff.mp hu)
  exact ⟨x, (List.mem_filter.mp hx).1, rfl⟩

/-- The constituents of a result are the reports on its members, in some order. -/
theorem constituents_perm (h : s.IsReport l n nt) : nt.constituents.Perm
    ((s.parts l n (s.listed l n) (s.unknownsBelow l n)).map partReport) := by
  unfold NodeTrait.constituents parts
  rw [List.map_append, List.map_map, List.map_map]
  refine ((h.memories.map (·.categories)).append (h.unknowns.map (·.categories))).trans ?_
  rw [List.map_map, List.map_map]
  rfl

/-- Memory is stored under one of ten sets of categories, and as untouched only if its address
escapes. -/
theorem categories_memory (h : s.IsReport l n nt) (w : s.tree.WellFormed)
    (hresolve : s.resolve { dependences := d } = .ok l) {mt : MemoryTrait}
    (hmt : mt ∈ nt.memories) : mt.categories \ Categories.markers ∈ Categories.ofMemory
      ∧ (mt.categories.has .noAccess = true → mt.categories.has .addressAccess = true) := by
  have noted := noted_resolve hresolve
  obtain ⟨m, hm, rfl⟩ := h.exists_memory hmt
  show mark _ _ \ Categories.markers ∈ _ ∧ ((mark _ _).has _ = true → (mark _ _).has _ = true)
  rw [mark_sdiff_markers]
  refine ⟨Trait.categories_mem_ofMemory (regular_verdict noted), fun hno => ?_⟩
  rw [has_mark, show decide (Category.noAccess = .explicitAccess) = false from rfl, Bool.and_false,
    Bool.or_false] at hno
  have huntouched := Trait.categories_eq_noAccess.mp (Trait.categories_of_noAccess hno)
  rw [has_mark, Trait.has_addressAccess, addressAccess_of_untouched w noted hm huntouched]
  rfl

/-- Unknown accesses are stored as read only or as full dependences. -/
theorem categories_unknown (h : s.IsReport l n nt)
    (hresolve : s.resolve { dependences := d } = .ok l) {u : UnknownTrait}
    (hu : u ∈ nt.unknowns) : u.categories \ {.explicitAccess} = {.readonly}
      ∨ u.categories \ {.explicitAccess} = Categories.dependency := by
  obtain ⟨x, hx, rfl⟩ := h.exists_unknown hu
  show mark (marksUnknown n x) x.value.categories \ _ = _
    ∨ mark (marksUnknown n x) x.value.categories \ _ = _
  rcases value_of_mem_unknowns hresolve hx with hv | hv
  · rw [hv]
    exact .inl (by cases marksUnknown n x <;> decide)
  · rw [hv]
    exact .inr (by cases marksUnknown n x <;> decide)

/-- What is stored for a node is a summary of what the node lists. -/
theorem summarized (h : s.IsReport l n nt) (hresolve : s.resolve { dependences := d } = .ok l) :
    nt.Summarized := by
  have hlength := h.memories.length_eq
  have hlength' := h.unknowns.length_eq
  rw [List.length_map] at hlength hlength'
  by_cases hmixed : nt.Mixed
  · -- Not one memory alone: the node is reported by the summary of all its members.
    have hmixed' : s.unknownsBelow l n ≠ [] ∨ (s.listed l n).length ≠ 1 := by
      refine hmixed.imp (fun hne heq => hne ?_) fun hne => hlength ▸ hne
      exact List.eq_nil_of_length_eq_zero (hlength'.trans (congrArg List.length heq))
    have hms (m : EstimateId) (hm : m ∈ s.listed l n) := mem_listed.mp hm
    have hus (x : UnknownEntry) (hx : x ∈ s.unknownsBelow l n) :=
      value_of_mem_unknowns hresolve (List.mem_filter.mp hx).1
    refine NodeTrait.summarized_of_parts (regular_summaryOf (noted_resolve hresolve) hus)
      (is_readonly_summaryOf hms) (addressAccess_summaryOf hms) ?_ h.constituents_perm hmixed
    rw [h.categories, nodeCategories_of_mixed hmixed']
    unfold parts
    rw [List.any_append, List.any_map, List.any_map]
    rfl
  · -- One memory is listed and nothing else.
    unfold NodeTrait.Mixed at hmixed
    rw [not_or, Decidable.not_not, Decidable.not_not] at hmixed
    obtain ⟨hnone, hone⟩ := hmixed
    obtain ⟨mt, hmt⟩ := List.length_eq_one_iff.mp hone
    obtain ⟨m, hm⟩ := List.length_eq_one_iff.mp (hlength.symm.trans hone)
    have hbelow : s.unknownsBelow l n = [] :=
      List.eq_nil_of_length_eq_zero (hlength'.symm.trans (congrArg List.length hnone))
    have hreport := h.memories
    rw [hmt, hm, List.map_singleton] at hreport
    have hsame : nt.categories = mt.categories := by
      rw [h.categories, hm, hbelow, List.singleton_perm_singleton.mp hreport]
      rfl
    have hlist : nt.constituents = [mt.categories] := by
      unfold NodeTrait.constituents
      rw [hmt, hnone]
      rfl
    have habsurd : ¬nt.Mixed := fun hmixed => hmixed.elim (absurd hnone) (absurd hone)
    refine ⟨fun mt' hmt' _ => ?_, fun h => absurd h habsurd, fun h => absurd h habsurd,
      fun h => absurd h habsurd, fun a _ => ?_⟩
    · rw [hsame, (List.cons.inj (hmt.symm.trans hmt')).1]
    · rw [hlist, hsame]
      simp

end IsReport

/-! ## Results -/

/-- What a classified loop reports for a node is what the propagation stored for it, or all of that
as a full dependence. -/
theorem exists_stored (w : s.tree.WellFormed) (h : s.resolve { dependences := d } = .ok l)
    (settings : Settings) (hnt : (s.finish l settings).traits.get? n = some nt) :
    ∃ stored, s.IsReport l n stored ∧ (nt = stored ∨ nt = stored.toDependency) := by
  have noted := noted_resolve h
  rw [get?_finish] at hnt
  obtain ⟨stored, hstored, rfl⟩ := Option.map_eq_some_iff.mp hnt
  refine ⟨stored, (propagate_recorded w noted.fresh (queued_resolve h)).reports n stored hstored, ?_⟩
  unfold NodeTrait.forced
  split
  · split
    · exact .inl rfl
    · exact .inr rfl
  · exact .inl rfl

end Scope

variable {settings : Settings} {f : Function} {t : AliasTree} {loop : Loop}
  {depends : DependenceOracle} {modRef : ModRefOracle} {result : LoopResult}

/-- Markers left out, a classified loop reports memory under one of ten sets of categories, and as
untouched only if its address escapes. Unknown accesses are read only or full dependences. -/
theorem categories_exclusive (grown : t.Grown)
    (h : classifyLoop settings f t loop depends modRef = .ok result) :
    ∀ n nt, result.traits.get? n = some nt →
      (∀ mt ∈ nt.memories, mt.categories \ Categories.markers ∈ Categories.ofMemory
        ∧ (mt.categories.has .noAccess = true → mt.categories.has .addressAccess = true))
      ∧ ∀ u ∈ nt.unknowns, u.categories \ {.explicitAccess} = {.readonly}
        ∨ u.categories \ {.explicitAccess} = Categories.dependency := by
  obtain ⟨s, d, l, st, rfl⟩ := classifyLoop_eq_ok.mp h
  obtain ⟨-, rfl, -, -, -⟩ := Scope.ofLoop_eq_ok st.scope
  intro n nt hnt
  obtain ⟨stored, hreport, hcases⟩ := Scope.exists_stored grown.wellFormed st.ledger settings hnt
  have hmemory (mt : MemoryTrait) (hmt : mt ∈ stored.memories) :=
    hreport.categories_memory grown.wellFormed st.ledger hmt
  have hunknown (u : UnknownTrait) (hu : u ∈ stored.unknowns) :=
    hreport.categories_unknown st.ledger hu
  rcases hcases with rfl | rfl
  · exact ⟨hmemory, hunknown⟩
  · constructor
    · intro mt hmt
      obtain ⟨mt₀, -, rfl⟩ := List.mem_map.mp hmt
      exact FlagSet.toDependency_ofMemory mt₀.categories
    · intro u hu
      obtain ⟨u₀, hu₀, rfl⟩ := List.mem_map.mp hu
      exact .inr (FlagSet.toDependency_of_unknown (hunknown u₀ hu₀))

/-- At the root, the object that the nested loop writes is reported under one of the ten sets. -/
theorem categories_exclusive_nested :
    ∃ result nt mt, nestedTree.Grown ∧ nestedResult = .ok result
      ∧ result.traits.get? AliasTree.top = some nt ∧ mt ∈ nt.memories ∧ mt.memory = ⟨0⟩
      ∧ mt.categories \ Categories.markers ∈ Categories.ofMemory := by
  have grown : nestedTree.Grown := AliasTree.grown_ofAdditions _
  obtain ⟨result, hresult⟩ := exists_of_isOk (x := nestedResult) (by decide +kernel)
  have hexclusive := categories_exclusive grown hresult
  obtain ⟨s, d, l, st, rfl⟩ := classifyLoop_eq_ok.mp hresult
  obtain rfl : s = nestedScope := st.scope_eq rfl
  have hheads := st.eval (fun l => nestedScope.heads l AliasTree.top) (a := [⟨0⟩, ⟨0⟩])
    (by decide +kernel)
  obtain ⟨nt, mt, hnt, hmt, hmemory, -⟩ := Scope.exists_report_top (s := nestedScope)
    grown.wellFormed (Scope.noted_resolve st.ledger) {} (m := ⟨0⟩)
    (by rw [hheads]; exact List.mem_cons_self)
  exact ⟨_, nt, mt, grown, hresult, hnt, hmt, hmemory, ((hexclusive _ nt hnt).1 mt hmt).1⟩

/-- A classified loop reports each node as the one memory it lists, or as a summary of all it
lists. -/
theorem summarized_of_classifyLoop (grown : t.Grown)
    (h : classifyLoop settings f t loop depends modRef = .ok result) :
    ∀ n nt, result.traits.get? n = some nt → nt.Summarized := by
  obtain ⟨s, d, l, st, rfl⟩ := classifyLoop_eq_ok.mp h
  obtain ⟨-, rfl, -, -, -⟩ := Scope.ofLoop_eq_ok st.scope
  intro n nt hnt
  obtain ⟨stored, hreport, hcases⟩ := Scope.exists_stored grown.wellFormed st.ledger settings hnt
  have hsummarized := hreport.summarized st.ledger
  rcases hcases with rfl | rfl
  · exact hsummarized
  · exact hsummarized.toDependency

/-! The pointer and the bytes behind it again, whose nodes have nothing in common but the root. -/

def pointerStoresScope : Scope where
  function := pointerStoresFunction
  tree := pointerStoresTree
  loop := twoBlocks
  defUse := { explicit := pointerStores, defs := .ofList pointerStores }
  live := ∅
  latch := ⟨∅, ∅⟩
  exit := ⟨∅, ∅⟩

/-- The root lists both, and since they are written it is a full dependence. -/
theorem summarized_of_classifyLoop_pointerStores :
    ∃ result nt, pointerStoresTree.Grown
      ∧ classifyLoop {} pointerStoresFunction pointerStoresTree twoBlocks noAnswers
        pointerStoresFunction.modRef = .ok result
      ∧ result.traits.get? AliasTree.top = some nt ∧ nt.memories.length = 2 ∧ nt.Summarized
      ∧ nt.categories \ Categories.markers = Categories.dependency := by
  have grown : pointerStoresTree.Grown := AliasTree.grown_ofAdditions _
  obtain ⟨result, hresult⟩ := exists_of_isOk (x := classifyLoop {} pointerStoresFunction
    pointerStoresTree twoBlocks noAnswers pointerStoresFunction.modRef) (by decide +kernel)
  have hsummarized := summarized_of_classifyLoop grown hresult
  obtain ⟨s, d, l, st, rfl⟩ := classifyLoop_eq_ok.mp hresult
  obtain rfl : s = pointerStoresScope := st.scope_eq rfl
  have heval := st.eval (fun l => ((pointerStoresScope.propagate l ∅).2.get? AliasTree.top).map
    fun nt => (nt.memories.length, nt.categories \ Categories.markers == {.readonly}))
    (a := some (2, false)) (by decide +kernel)
  -- Nothing lies above the root, so what was stored for it is what is reported.
  obtain ⟨nt, hstored, hnt⟩ := Option.map_eq_some_iff.mp heval
  obtain ⟨hlength, hread⟩ := Prod.mk.inj hnt
  have hget := Scope.get?_finish pointerStoresScope l {} AliasTree.top
  rw [hstored, Scope.overruled_top] at hget
  have hmixed : nt.Mixed := .inr (by rw [hlength]; decide)
  have hnode := hsummarized _ nt hget
  exact ⟨_, nt, grown, hresult, hget, hlength, hnode,
    hnode.dependency hmixed (beq_eq_false_iff_ne.mp hread)⟩

end Privatization
