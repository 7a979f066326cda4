import Mathlib.Algebra.BigOperators.Group.List.Basic
import Privatization.Proofs.Propagation.Verdict
import Privatization.Proofs.Trait.Counting

/-!
# Reports in full

What is stored for a node and what is counted for it, to the last category. A memory listed at a
node is reported under the verdict on it (`memoryReport`), an unknown access under its own value
(`unknownReport`), and the node under the one category set it has or under a summary
(`nodeReport`). A memory is counted where it stands for tracked memory of the very node
(`counts`), and an unknown access at the node it was attributed to.

The groups of the node are stored one by one. Whatever was stored before, a group leaves the report
on its memory (`Gathered.memoryTrait_eq`), so the node gets what the closed form says
(`Gathered.storeResults_eq`).
-/

namespace Privatization

/-- Whether the group of `id` is explicit in a node, by the memory it speaks for. -/
theorem Ledger.isExplicitIn_eq_any (l : Ledger) (t : AliasTree) (id : EntryId) (n : AliasNodeId) :
    l.isExplicitIn t id n
      = l.explicit.keys.any fun em => l.member (l.leader id) em && t.home em == n := by
  unfold Ledger.isExplicitIn OrderedMap.keys
  rw [List.any_map]
  refine any_congr_of_mem fun p hp => ?_
  show (_ && _) = (_ && _)
  unfold Ledger.member
  rw [Ledger.explicitEntry?_of_get? (OrderedMap.mem_toList_iff.mp hp)]
  rfl

namespace Scope

variable {s : Scope} {l₀ lg l l' : Ledger} {n : AliasNodeId} {ids done others : List EntryId}
  {id : EntryId} {em m : EstimateId} {place : EstimateId → EstimateId} {said : EstimateId → Trait}

/-! ## The closed form -/

/-- Categories, with the mark of an explicit access or without it. -/
def mark (explicit : Bool) (c : Categories) : Categories :=
  if explicit then c ∪ {.explicitAccess} else c

theorem tally_mark (b : Bool) (c : Categories) (k : UInt64) :
    Statistics.tally (mark b c) k = Statistics.tally c k := by
  cases b with
  | false => rfl
  | true => exact Statistics.tally_explicit c k

/-- Whether a memory listed at a node is accessed there by name. -/
def marks (s : Scope) (l : Ledger) (n : AliasNodeId) (m : EstimateId) : Bool :=
  s.tree.home m == n && decide (m ∈ l.explicit.keys) && !(s.verdict l n m).is .noAccess

/-- What is reported about a memory: the categories of its verdict, the mark and the dependence. -/
def memoryReport (s : Scope) (l : Ledger) (n : AliasNodeId) (m : EstimateId) : MemoryTrait where
  memory := m
  categories := mark (s.marks l n m) (s.verdict l n m).categories
  dependence := l.dependenceOf s.tree m

/-- What a head carries when its node is summarized: the evidence, with a copy if some of it was
copied below. -/
def incoming (s : Scope) (l : Ledger) (n : AliasNodeId) (m : EstimateId) : Trait :=
  (s.evidence l n m).meet
    (.copyIn (l.explicit.keys.any fun em => s.standsFor n m em && s.copiedBelow l n em))

/-- Whether a memory listed at a node stands for tracked memory of the very node. -/
def counts (s : Scope) (l : Ledger) (n : AliasNodeId) (m : EstimateId) : Bool :=
  l.explicit.keys.any fun em => s.standsFor n m em && s.tree.home em == n

/-- What a listed memory adds to the statistics. -/
def memoryTally (s : Scope) (l : Ledger) (n : AliasNodeId) (m : EstimateId) : Statistics :=
  .tally (s.verdict l n m).categories (if s.counts l n m then 1 else 0)

/-- Whether an unknown access was attributed to the node and does something. -/
def marksUnknown (n : AliasNodeId) (x : UnknownEntry) : Bool := x.node == n && !x.value.is .noAccess

/-- What is reported about an unknown access. -/
def unknownReport (n : AliasNodeId) (x : UnknownEntry) : UnknownTrait where
  inst := x.inst
  categories := mark (marksUnknown n x) x.value.categories

/-- What an unknown access counts for at a node: it is counted where it was made. -/
def unknownTally (n : AliasNodeId) (x : UnknownEntry) : Statistics :=
  .tally x.value.categories (if x.node == n then 1 else 0)

/-- What the constituents of a node have in common. -/
def summaryOf (s : Scope) (l : Ledger) (n : AliasNodeId) (ms : List EstimateId)
    (us : List UnknownEntry) : Trait :=
  (Trait.meetAll (ms.map (s.incoming l n))).meet (.meetAll (us.map (·.value)))

/-- The categories of a node that lists `ms` and `us`. -/
def nodeCategories (s : Scope) (l : Ledger) (n : AliasNodeId) :
    List EstimateId → List UnknownEntry → Categories
  | [m], [] => (s.memoryReport l n m).categories
  | ms, us => mark (ms.any (s.marks l n) || us.any (marksUnknown n))
    ((s.summaryOf l n ms us).meet (s.summaryOf l n ms us).summary).categories

/-- The result of a node in closed form, for its members in some order. -/
def nodeReport (s : Scope) (l : Ledger) (n : AliasNodeId) (ms : List EstimateId)
    (us : List UnknownEntry) : NodeTrait where
  node := n
  categories := s.nodeCategories l n ms us
  memories := ms.map (s.memoryReport l n)
  unknowns := us.map (unknownReport n)

/-- What a node counts in closed form. -/
def nodeTally (s : Scope) (l : Ledger) (n : AliasNodeId) (ms : List EstimateId)
    (us : List UnknownEntry) : Statistics :=
  (ms.map (s.memoryTally l n)).sum + (us.map (unknownTally n)).sum

/-! ## One group -/

/-- Storing a group lets it carry its value with the copy it wants, and tallies that value. -/
theorem memoryTrait_outcome (hleads : l.Leads id) (hm : l.memory? id = some m) :
    ∃ l', s.memoryTrait l n id = (l', some (⟨m,
        mark (l'.isExplicit s.tree n m) ((l.value id).meet (.copyIn (s.wants l id))).categories,
        l.dependenceOf s.tree m⟩, l'.isExplicit s.tree n m))
      ∧ Refines [id] l l'
      ∧ l'.value id = (l.value id).meet (.copyIn (s.wants l id))
      ∧ l'.statistics = l.statistics
        + .tally ((l.value id).meet (.copyIn (s.wants l id))).categories
          (if l.isExplicitIn s.tree id n then 1 else 0) := by
  generalize hk : (if l.isExplicitIn s.tree id n then (1 : UInt64) else 0) = k
  generalize hc : (l.value id).categories = c
  -- Counting changes neither the value nor whether the group wants a copy.
  have hr : s.refineCopyIn (l.count c k) id c = (if s.wants l id then (l.count c k).narrow id
      .firstPrivate else l.count c k, ((l.value id).meet (.copyIn (s.wants l id))).categories,
      s.wants l id) := by
    rw [← hc]
    exact refineCopyIn_eq (l.count (l.value id).categories k) id
  cases hwants : s.wants l id with
  | false =>
    rw [hwants, if_neg Bool.false_ne_true, ← hc] at hr
    refine ⟨l.count c k, ?_, .count _ _, (Trait.meet_noAccess _).symm, ?_⟩
    · rw [memoryTrait_eq hm hk.symm hr rfl, hc]
      rfl
    · show l.statistics + _ = l.statistics + .tally ((l.value id).meet .noAccess).categories k
      rw [Trait.meet_noAccess, hc]
  | true =>
    obtain ⟨hfirst, hmeet, hcategories⟩ := firstPrivate_of_wants hwants
    rw [hwants, if_pos rfl, ← hc] at hr
    have hleads₁ : Ledger.Leads (l.count c k) id := hleads
    refine ⟨((l.count c k).narrow id .firstPrivate).count {.firstPrivate} k, ?_, ?_, ?_, ?_⟩
    · rw [memoryTrait_eq hm hk.symm hr rfl, hc]
      rfl
    · have href : Refines [id] l (l.count c k) := .count c k
      exact (href.trans (.narrow hleads₁ (List.mem_singleton.mpr rfl) _)).trans (.count _ _)
    · exact (Ledger.value_narrow_self hleads₁ .firstPrivate).trans hmeet
    · show l.statistics + .tally c k + .tally {.firstPrivate} k = _
      rw [Statistics.add_assoc, ← hc, Statistics.tally_firstPrivate hfirst, hcategories]
      rfl

namespace Gathered

/-- Whether a group is counted can be read off what its memory stands for. -/
theorem isExplicitIn_eq (g : Gathered s l₀ n lg ids place said) (hid : id ∈ ids)
    (hm : lg.memory? id = some m) (href : Refines others lg l) :
    l.isExplicitIn s.tree id n = s.counts l₀ n m := by
  obtain ⟨e, he, -⟩ := g.gathers.holds_of_mem hid
  have hlead := (href.within.frame id List.not_mem_nil (g.accounts.grouped.leads he)).1.leader_eq
  have hmember (em : EstimateId) (hem : em ∈ l₀.explicit.keys) :
      l.member id em = s.standsFor n m em := by
    rw [← g.member_eq hid hm hem]
    unfold Ledger.member
    rw [href.within.explicitEntry?_eq]
  rw [Ledger.isExplicitIn_eq_any, hlead, href.within.explicit, g.explicit]
  unfold counts
  exact any_congr_of_mem fun em hem => by rw [hmember em hem]

/-- The mark of a listed memory is about its own group: memory of the node that is tracked under its
own name is not lifted any further. -/
theorem explicitEntry?_head (g : Gathered s l₀ n lg ids place said) (hid : id ∈ ids)
    (hm : lg.memory? id = some m) (hhome : s.tree.home m = n) (hkey : m ∈ l₀.explicit.keys) :
    lg.explicitEntry? m = some id := by
  have hreach : s.reaches n m = true := by
    unfold reaches
    rw [hhome]
    exact AliasTree.isNodeAncestor_refl n
  obtain ⟨-, houtermost⟩ := mem_heads.mp (g.mem_heads_iff.mpr ⟨id, hid, hm⟩)
  have hlift : s.tree.liftTo n m = m := houtermost _ (mem_lifted.mpr ⟨m, hkey, hreach, rfl⟩)
    (AliasTree.liftTo_ancestor n m)
  rw [← Ledger.member_iff, g.member_eq hid hm hkey, standsFor_iff, hlift]
  exact ⟨hreach, AliasTree.isEstimateAncestor_refl m⟩

/-- The mark of a group is that of the memory it stands for. -/
theorem isExplicit_eq (g : Gathered s l₀ n lg ids place said) (hid : id ∈ ids)
    (hm : lg.memory? id = some m) (hw : Ledger.Within [] lg l)
    (hvalue : l.value id = s.verdict l₀ n m) : l.isExplicit s.tree n m = s.marks l₀ n m := by
  unfold Ledger.isExplicit marks
  by_cases hhome : s.tree.home m = n
  · rw [beq_iff_eq.mpr hhome, Bool.true_and, Bool.true_and, hw.explicitEntry?_eq]
    by_cases hkey : m ∈ l₀.explicit.keys
    · rw [g.explicitEntry?_head hid hm hhome hkey, Option.any_some, hvalue, decide_eq_true hkey]
      rfl
    · have hnone : lg.explicitEntry? m = none := by
        refine Option.eq_none_iff_forall_ne_some.mpr fun j hj => hkey ?_
        rw [← g.explicit]
        exact Ledger.mem_explicit_keys.mpr ⟨j, hj⟩
      rw [hnone, decide_eq_false hkey]
      rfl
  · rw [beq_eq_false_iff_ne.mpr hhome]
    rfl

/-- Storing a group of the node, after any others, gives the report on its memory. -/
theorem memoryTrait_eq (g : Gathered s l₀ n lg ids place said)
    (hdependences : lg.dependences = l₀.dependences) (href : Refines others lg l) (hid : id ∈ ids)
    (hout : id ∉ others) (hm : lg.memory? id = some m) :
    ∃ l', s.memoryTrait l n id = (l', some (s.memoryReport l₀ n m, s.marks l₀ n m))
      ∧ Refines [id] l l' ∧ l.value id = s.incoming l₀ n m
      ∧ l'.statistics = l.statistics + s.memoryTally l₀ n m := by
  obtain ⟨e, he, -⟩ := g.gathers.holds_of_mem hid
  have hleads := g.accounts.grouped.leads he
  have hm' := (href.memory hleads).trans hm
  obtain ⟨l', heq, href', hvalue, hstatistics⟩ :=
    memoryTrait_outcome (n := n) (s := s) (href.within.frame id List.not_mem_nil hleads).1 hm'
  -- What the group carries is not changed by the groups stored before it.
  rw [href.value id hleads hout, href.wants hleads hout, g.stored_value_eq hid hm] at *
  have hcounts := g.isExplicitIn_eq hid hm href
  have hdependence : l.dependenceOf s.tree m = l₀.dependenceOf s.tree m := by
    unfold Ledger.dependenceOf
    rw [href.within.dependences, hdependences]
  have hmarks := g.isExplicit_eq hid hm (href.within.trans href'.within) hvalue
  refine ⟨l', ?_, href', g.value_eq hid hm, ?_⟩
  · rw [heq, hmarks, hdependence]
    rfl
  · rw [hstatistics, hcounts]
    rfl

/-! ## All groups of a node -/

/-- Where the groups `done` of the node were added to its summary. -/
structure Drafted (s : Scope) (l₀ lg : Ledger) (n : AliasNodeId) (done : List EntryId)
    (d : Draft) : Prop where
  refines : Refines done lg d.ledger
  statistics : d.ledger.statistics
    = lg.statistics + ((done.filterMap lg.memory?).map (s.memoryTally l₀ n)).sum
  combined : d.combined = .meetAll ((done.filterMap lg.memory?).map (s.incoming l₀ n))
  explicit : d.explicit = (done.filterMap lg.memory?).any (s.marks l₀ n)
  memories : d.memories = (done.filterMap lg.memory?).map (s.memoryReport l₀ n)
  unknowns : d.unknowns = []

/-- Another group adds the report on its memory to the draft. -/
theorem addMemory_drafted (g : Gathered s l₀ n lg ids place said)
    (hdependences : lg.dependences = l₀.dependences) {d : Draft} (h : Drafted s l₀ lg n done d)
    (hid : id ∈ ids) (hout : id ∉ done) : Drafted s l₀ lg n (done ++ [id]) (s.addMemory n d id) := by
  obtain ⟨e, he, -⟩ := g.gathers.holds_of_mem hid
  obtain ⟨m, hm⟩ := (g.accounts.grouped.leads he).exists_memory
  obtain ⟨l', heq, href, hvalue, hstatistics⟩ :=
    g.memoryTrait_eq hdependences h.refines hid hout hm
  have hlisted : (done ++ [id]).filterMap lg.memory? = done.filterMap lg.memory? ++ [m] := by
    rw [List.filterMap_append, List.filterMap_cons_some hm, List.filterMap_nil]
  -- The draft takes over the value, the mark and the report of the memory the group stands for.
  have hadd : s.addMemory n d id = { d with
      ledger := l'
      combined := d.combined.meet (s.incoming l₀ n m)
      explicit := d.explicit || s.marks l₀ n m
      memories := d.memories ++ [s.memoryReport l₀ n m] } := by
    unfold addMemory
    rw [heq, hvalue]
  rw [hadd]
  constructor
  case refines =>
    refine (h.refines.mono fun j hj => List.mem_append_left [id] hj).trans (href.mono fun j hj => ?_)
    exact List.mem_append_right done hj
  case statistics =>
    rw [hlisted, List.map_append, List.sum_append, hstatistics, h.statistics, Statistics.add_assoc]
    show _ = _ + (_ + (s.memoryTally l₀ n m + 0))
    rw [add_zero]
  case combined =>
    rw [hlisted, List.map_append, Trait.meetAll_append, h.combined, List.map_singleton,
      Trait.meetAll_singleton]
  case explicit =>
    rw [hlisted, List.any_append, h.explicit, List.any_cons, List.any_nil, Bool.or_false]
  case memories => rw [hlisted, List.map_append, h.memories]; rfl
  case unknowns => exact h.unknowns

/-- The groups of the node one after the other. -/
theorem addMemory_drafted_run (g : Gathered s l₀ n lg ids place said)
    (hdependences : lg.dependences = l₀.dependences) {rest : List EntryId} {d : Draft}
    (h : Drafted s l₀ lg n done d) (hrest : ∀ id ∈ rest, id ∈ ids) (hnodup : (done ++ rest).Nodup) :
    Drafted s l₀ lg n (done ++ rest) (rest.foldl (s.addMemory n) d) := by
  induction rest generalizing done d with
  | nil =>
    rw [List.append_nil]
    exact h
  | cons id rest ih =>
    rw [List.append_cons] at hnodup ⊢
    have hout : id ∉ done := by
      obtain ⟨hdone, -, -⟩ := List.nodup_append.mp hnodup
      obtain ⟨-, -, hapart⟩ := List.nodup_append.mp hdone
      exact fun hid => hapart id hid id List.mem_cons_self rfl
    have hnext := g.addMemory_drafted hdependences h (hrest id List.mem_cons_self) hout
    exact ih hnext (fun j hj => hrest j (List.mem_cons_of_mem id hj)) hnodup

end Gathered

/-! ## Unknown accesses -/

/-- Each unknown access is added to the summary of its node, and counted if it was
attributed there. -/
theorem addUnknown_eq {ledger : Ledger} {waiting : List UnknownEntryId} {us : List UnknownEntry}
    {d : Draft} (hwaiting : waiting.map ledger.unknown? = us.map some)
    (hd : d.ledger.unknowns = ledger.unknowns) :
    waiting.foldl (addUnknown n) d = { d with
      ledger := { d.ledger with
        statistics := d.ledger.statistics + (us.map (unknownTally n)).sum }
      combined := d.combined.meet (.meetAll (us.map (·.value)))
      explicit := d.explicit || us.any (marksUnknown n)
      unknowns := d.unknowns ++ us.map (unknownReport n) } := by
  induction waiting generalizing us d with
  | nil =>
    obtain rfl : us = [] := (List.map_eq_nil_iff.mp hwaiting.symm)
    simp [Trait.meet_noAccess]
  | cons x waiting ih =>
    cases us with
    | nil => cases hwaiting
    | cons u us =>
      obtain ⟨hx, hrest⟩ := List.cons.inj hwaiting
      have hx : d.ledger.unknown? x = some u := by
        unfold Ledger.unknown? at hx ⊢
        rw [hd]
        exact hx
      have hadd : addUnknown n d x = { d with
          ledger := { d.ledger with statistics := d.ledger.statistics + unknownTally n u }
          combined := d.combined.meet u.value
          explicit := d.explicit || marksUnknown n u
          unknowns := d.unknowns ++ [unknownReport n u] } := by
        unfold addUnknown
        rw [hx]
        rfl
      -- Every component gets the same added in front.
      rw [List.foldl_cons, ih hrest (by rw [hadd]; exact hd), hadd]
      simp only [List.map_cons, List.sum_cons, List.any_cons, Trait.meetAll_cons,
        Statistics.add_assoc, Trait.meet_assoc, Bool.or_assoc, List.append_assoc, List.cons_append,
        List.nil_append]

/-! ## The result of a node -/

/-- Unless it lists one memory alone, a node is reported by its summary. -/
theorem nodeCategories_of_mixed {ms : List EstimateId} {us : List UnknownEntry}
    (h : us ≠ [] ∨ ms.length ≠ 1) : s.nodeCategories l₀ n ms us
      = mark (ms.any (s.marks l₀ n) || us.any (marksUnknown n))
        ((s.summaryOf l₀ n ms us).meet (s.summaryOf l₀ n ms us).summary).categories := by
  match ms, us with
  | [], [] => rfl
  | [m], [] => simp at h
  | [], u :: us => rfl
  | [m], u :: us => rfl
  | m :: m' :: ms, us => rfl

namespace Gathered

variable {waiting : List UnknownEntryId} {us : List UnknownEntry}

/-- Every group of the node stands at a memory. -/
theorem map_memory? (g : Gathered s l₀ n lg ids place said) :
    ids.map lg.memory? = (ids.filterMap lg.memory?).map some := by
  rw [List.map_filterMap_some_eq_filter_map_isSome]
  refine (List.filter_eq_self.mpr fun o ho => ?_).symm
  obtain ⟨id, hid, rfl⟩ := List.mem_map.mp ho
  obtain ⟨e, he, -⟩ := g.gathers.holds_of_mem hid
  obtain ⟨m, hm⟩ := (g.accounts.grouped.leads he).exists_memory
  rw [hm]
  rfl

theorem mixedTrait_eq (g : Gathered s l₀ n lg ids place said)
    (hdependences : lg.dependences = l₀.dependences)
    (hwaiting : waiting.map lg.unknown? = us.map some) :
    (s.mixedTrait lg n ids waiting).1.statistics
        = lg.statistics + s.nodeTally l₀ n (ids.filterMap lg.memory?) us
      ∧ (s.mixedTrait lg n ids waiting).2 = { s.nodeReport l₀ n (ids.filterMap lg.memory?) us with
        categories := mark
          ((ids.filterMap lg.memory?).any (s.marks l₀ n) || us.any (marksUnknown n))
          ((s.summaryOf l₀ n (ids.filterMap lg.memory?) us).meet
            (s.summaryOf l₀ n (ids.filterMap lg.memory?) us).summary).categories } := by
  have hstart : Drafted s l₀ lg n [] { ledger := lg } :=
    ⟨.refl [] lg, (Statistics.add_empty _).symm, rfl, rfl, rfl, rfl⟩
  have h := g.addMemory_drafted_run hdependences hstart (fun _ hid => hid) g.gathers.nodup
  rw [List.nil_append] at h
  have hd := addUnknown_eq (n := n) hwaiting h.refines.within.unknowns
  rw [h.combined, h.explicit, h.memories, h.unknowns] at hd
  unfold mixedTrait
  dsimp only
  rw [hd]
  refine ⟨?_, rfl⟩
  show _ + _ = _
  rw [h.statistics, Statistics.add_assoc]
  rfl

/-- What is stored for a node and counted for it is what the closed form says about the memories the
node is left with and the unknown accesses that wait at it. -/
theorem storeResults_eq (g : Gathered s l₀ n lg ids place said)
    (hdependences : lg.dependences = l₀.dependences)
    (hwaiting : waiting.map lg.unknown? = us.map some) (traits : TraitMap) :
    (s.storeResults n ids waiting lg traits).1.statistics
        = lg.statistics + s.nodeTally l₀ n (ids.filterMap lg.memory?) us
      ∧ (s.storeResults n ids waiting lg traits).2
        = if ids.filterMap lg.memory? = [] ∧ us = [] then traits
          else traits.record (s.nodeReport l₀ n (ids.filterMap lg.memory?) us) := by
  have hmemories := g.map_memory?
  obtain ⟨hstatistics, hreport⟩ := g.mixedTrait_eq hdependences hwaiting
  generalize ids.filterMap lg.memory? = ms at *
  have hlength : ids.length = ms.length := by
    simpa using congrArg List.length hmemories
  have hlength' : waiting.length = us.length := by
    simpa using congrArg List.length hwaiting
  by_cases hmixed : waiting ≠ [] ∨ 1 < ids.length
  · -- The node has a summary, and the closed form says so too.
    have hmixed' : us ≠ [] ∨ 1 < ms.length := by
      rw [← hlength, ← List.length_pos_iff, ← hlength', List.length_pos_iff]
      exact hmixed
    have hms : ¬(ms = [] ∧ us = []) := by
      rintro ⟨rfl, rfl⟩
      simp at hmixed'
    rw [storeResults_of_mixed traits hmixed, if_neg hms, hreport,
      ← nodeCategories_of_mixed (hmixed'.imp_right Nat.ne_of_gt)]
    exact ⟨hstatistics, rfl⟩
  · rw [not_or, Decidable.not_not] at hmixed
    obtain ⟨rfl, hids⟩ := hmixed
    obtain rfl : us = [] := List.eq_nil_of_length_eq_zero hlength'.symm
    -- Otherwise it stores nothing, or what its one group reports.
    match ids, ms, hlength, hids with
    | [], [], _, _ => exact ⟨(Statistics.add_empty _).symm, (if_pos ⟨rfl, rfl⟩).symm⟩
    | [id], [m], _, _ =>
      have hm : lg.memory? id = some m := (List.cons.inj hmemories).1
      obtain ⟨l', heq, -, -, hone⟩ := g.memoryTrait_eq hdependences (.refl [] lg)
        List.mem_cons_self List.not_mem_nil hm
      have hstore : s.storeResults n [id] [] lg traits
          = (l', traits.record (s.nodeReport l₀ n [m] [])) := by
        unfold storeResults
        simp only [heq]
        rfl
      rw [hstore]
      refine ⟨hone.trans (congrArg _ ?_), (if_neg (by simp)).symm⟩
      show _ = (_ + 0) + (0 : Statistics)
      rw [add_zero, add_zero]
    | id :: id' :: ids, _, _, hids => simp at hids

end Gathered

end Scope

end Privatization
