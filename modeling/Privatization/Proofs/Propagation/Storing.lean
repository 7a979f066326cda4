import Privatization.Proofs.Collection.Lists
import Privatization.Proofs.Ledger.Lists

/-!
# Storing the result of a node

What is stored for the groups of a node: one report for each, under the categories of its value,
with a copy of the value from before the loop where those categories call for it
(`storeResults_spec`). The copy narrows the groups; their memory, and groups of other nodes, are
left alone (`Refines`).
-/

namespace Privatization.Scope

variable {s : Scope} {n : AliasNodeId} {l l' l'' : Ledger} {ids others : List EntryId}
  {id : EntryId} {em m : EstimateId} {mt : MemoryTrait} {place : EstimateId → EstimateId}
  {said : EstimateId → Trait} {P : EstimateId → Prop}

/-! ## Narrowing groups -/

/-- From `l` to `l'` nothing happened to groups, but that those of `ids` may have been narrowed. -/
structure Refines (ids : List EntryId) (l l' : Ledger) : Prop where
  within : Ledger.Within [] l l'
  value : ∀ j, l.Leads j → j ∉ ids → l'.value j = l.value j

namespace Refines

theorem refl (ids : List EntryId) (l : Ledger) : Refines ids l l :=
  ⟨.refl [] l, fun _ _ _ => rfl⟩

theorem trans (h : Refines ids l l') (h' : Refines ids l' l'') : Refines ids l l'' where
  within := h.within.trans h'.within
  value j hj hout := by
    have hj' := (h.within.frame j List.not_mem_nil hj).1
    exact (h'.value j hj' hout).trans (h.value j hj hout)

theorem mono (h : Refines ids l l') (hsub : ∀ id ∈ ids, id ∈ others) : Refines others l l' where
  within := h.within
  value j hj hout := h.value j hj fun hids => hout (hsub j hids)

theorem memory (h : Refines ids l l') (hj : l.Leads id) : l'.memory? id = l.memory? id :=
  (h.within.frame id List.not_mem_nil hj).2

theorem narrow (hleads : l.Leads id) (hid : id ∈ ids) (v : Trait) :
    Refines ids l (l.narrow id v) where
  within := .narrow hleads v
  value _ hj hout := Ledger.value_narrow_of_ne hleads hj (fun h => hout (h ▸ hid)) v

theorem count (c : Categories) (k : UInt64) : Refines ids l (l.count c k) where
  within := .count c k
  value _ _ _ := rfl

end Refines

/-! ## One group -/

/-- Whether the value from before the loop is copied in when the group of `id` is stored. -/
def wants (s : Scope) (l : Ledger) (id : EntryId) : Bool :=
  (l.memory? id).any fun m => s.needsCopyIn m (l.value id).categories

/-- `mt` reports the group of `id`. -/
structure Described (s : Scope) (l : Ledger) (id : EntryId) (mt : MemoryTrait) : Prop where
  memory : l.memory? id = some mt.memory
  categories : mt.categories \ {.explicitAccess}
    = ((l.value id).meet (.copyIn (s.wants l id))).categories
  dependence : mt.dependence = l.dependenceOf s.tree mt.memory

/-- Narrowing other groups does not change whether a group wants a copy. -/
theorem Refines.wants (h : Refines ids l l') (hleads : l.Leads id) (hid : id ∉ ids) :
    s.wants l' id = s.wants l id := by
  unfold Scope.wants
  rw [h.memory hleads, h.value id hleads hid]

/-- Narrowing other groups does not change what is reported about a group. -/
theorem Described.of_refines (h : Refines ids l l') (hleads : l.Leads id) (hid : id ∉ ids)
    (d : s.Described l' id mt) : s.Described l id mt := by
  refine ⟨h.memory hleads ▸ d.memory, ?_, ?_⟩
  · rw [d.categories, h.value id hleads hid, h.wants hleads hid]
  · rw [d.dependence]
    unfold Ledger.dependenceOf
    rw [h.within.dependences]

/-- A group that wants a copy is not first private yet, and becoming it is the same as
being read. -/
theorem firstPrivate_of_wants (h : s.wants l id = true) :
    (l.value id).categories.has .firstPrivate = false
      ∧ (l.value id).meet .firstPrivate = (l.value id).meet .readonly
      ∧ (l.value id).categories ∪ {.firstPrivate} = ((l.value id).meet .readonly).categories := by
  unfold wants at h
  rw [Option.any_eq_true] at h
  obtain ⟨m, -, hneeds⟩ := h
  unfold needsCopyIn at hneeds
  rw [Bool.and_eq_true, Bool.and_eq_true, Bool.not_eq_true'] at hneeds
  obtain ⟨⟨hfirst, hlast⟩, -⟩ := hneeds
  exact ⟨hfirst, Trait.meet_firstPrivate_of_meets hfirst hlast⟩

theorem refineCopyIn_eq (l : Ledger) (id : EntryId) :
    s.refineCopyIn l id (l.value id).categories
      = (if s.wants l id then l.narrow id .firstPrivate else l,
          ((l.value id).meet (.copyIn (s.wants l id))).categories, s.wants l id) := by
  unfold refineCopyIn
  cases hwants : s.wants l id with
  | false =>
    unfold wants at hwants
    rw [hwants]
    show (l, (l.value id).categories, false) = (l, ((l.value id).meet .noAccess).categories, false)
    rw [Trait.meet_noAccess]
  | true =>
    obtain ⟨-, -, hcategories⟩ := firstPrivate_of_wants hwants
    unfold wants at hwants
    rw [hwants]
    show (l.narrow id .firstPrivate, (l.value id).categories ∪ {.firstPrivate}, true) = _
    rw [hcategories]
    rfl

/-- What refinement does to a group and to what is reported about it. -/
theorem refineCopyIn_spec (a : l.Accounts s.tree place said) (hid : l.explicitEntry? em = some id) :
    (s.refineCopyIn l id (l.value id).categories).1.Accounts s.tree place
        (fun e => (said e).meet (.copyIn (l.member id e && s.wants l id)))
      ∧ Refines [id] l (s.refineCopyIn l id (l.value id).categories).1
      ∧ (s.refineCopyIn l id (l.value id).categories).2.1
        = ((l.value id).meet (.copyIn (s.wants l id))).categories := by
  rw [refineCopyIn_eq]
  cases hwants : s.wants l id with
  | false =>
    refine ⟨a.congr (fun _ _ => rfl) fun e _ => ?_, .refl [id] l, rfl⟩
    rw [Bool.and_false]
    exact Trait.meet_noAccess _
  | true =>
    obtain ⟨-, hmeet, -⟩ := firstPrivate_of_wants hwants
    refine ⟨(a.narrow hid hmeet).congr (fun _ _ => rfl) fun e _ => ?_,
      .narrow (a.grouped.leads hid) (List.mem_singleton.mpr rfl) _, rfl⟩
    rw [Bool.and_true]
    cases l.member id e with
    | false => exact Trait.meet_noAccess _
    | true => rfl

/-- What is stored for a group, by the outcome of refinement. -/
theorem memoryTrait_eq {k : UInt64} {c : Categories} {refined : Bool} (hm : l.memory? id = some m)
    (hk : k = if l.isExplicitIn s.tree id n then 1 else 0)
    (hr : s.refineCopyIn (l.count (l.value id).categories k) id (l.value id).categories
      = (l', c, refined))
    (hl : l'' = if refined then l'.count {.firstPrivate} k else l') :
    s.memoryTrait l n id = (l'', some (⟨m,
      if l''.isExplicit s.tree n m then c ∪ {.explicitAccess} else c,
      l''.dependenceOf s.tree m⟩, l''.isExplicit s.tree n m)) := by
  unfold memoryTrait
  rw [hm, hl, hk]
  rw [hk] at hr
  simp only [hr]

/-- What is stored for one group. -/
theorem memoryTrait_spec (a : l.Accounts s.tree place said) (hid : l.explicitEntry? em = some id) :
    ∃ mt explicit, (s.memoryTrait l n id).2 = some (mt, explicit) ∧ s.Described l id mt
      ∧ (s.memoryTrait l n id).1.Accounts s.tree place
        (fun e => (said e).meet (.copyIn (l.member id e && s.wants l id)))
      ∧ Refines [id] l (s.memoryTrait l n id).1 := by
  obtain ⟨m, hm⟩ := (a.grouped.leads hid).exists_memory
  generalize hk : (if l.isExplicitIn s.tree id n then (1 : UInt64) else 0) = k
  -- Counting changes no group, so what refinement reads is what it was.
  obtain ⟨ha, href, hc⟩ := refineCopyIn_spec (a.count (l.value id).categories k) hid
  change (s.refineCopyIn _ id (l.value id).categories).1.Accounts _ _ _ at ha
  change Refines [id] _ (s.refineCopyIn _ id (l.value id).categories).1 at href
  change (s.refineCopyIn _ id (l.value id).categories).2.1
    = ((l.value id).meet (.copyIn (s.wants l id))).categories at hc
  generalize hr : s.refineCopyIn (l.count (l.value id).categories k) id (l.value id).categories = r
    at ha href hc
  obtain ⟨l', c, refined⟩ := r
  have href' : Refines [id] l l' := (Refines.count (l.value id).categories k).trans href
  generalize hl : (if refined then l'.count {.firstPrivate} k else l') = l''
  have hcounted : l''.Accounts s.tree place
      (fun e => (said e).meet (.copyIn (l.member id e && s.wants l id))) ∧ Refines [id] l l'' := by
    rw [← hl]
    split
    · exact ⟨ha.count _ _, href'.trans (.count _ _)⟩
    · exact ⟨ha, href'⟩
  rw [memoryTrait_eq hm hk.symm hr hl.symm]
  refine ⟨_, _, rfl, ⟨hm, ?_, ?_⟩, hcounted⟩
  · obtain ⟨hplain, hmarked⟩ :=
      Trait.categories_sdiff_explicit ((l.value id).meet (.copyIn (s.wants l id)))
    obtain rfl : c = ((l.value id).meet (.copyIn (s.wants l id))).categories := hc
    cases l''.isExplicit s.tree n m with
    | false => exact hplain
    | true => exact hmarked
  · show l''.dependenceOf s.tree m = l.dependenceOf s.tree m
    unfold Ledger.dependenceOf
    rw [hcounted.2.within.dependences]

/-! ## All groups of a node -/

/-- `reports` holds one report for each group of `ids`, in their order. -/
structure Reports (s : Scope) (l : Ledger) (ids : List EntryId) (reports : List MemoryTrait) :
    Prop where
  memories : reports.map (fun mt => some mt.memory) = ids.map l.memory?
  described : ∀ mt ∈ reports, ∃ id ∈ ids, s.Described l id mt

/-- The report of one more group goes in front of those of the rest. -/
theorem Reports.cons {reports : List MemoryTrait} (h : Refines [id] l l')
    (hleads : ∀ j ∈ ids, l.Leads j) (hid : id ∉ ids) (hmt : s.Described l id mt)
    (hreports : s.Reports l' ids reports) : s.Reports l (id :: ids) (mt :: reports) where
  memories := by
    rw [List.map_cons, List.map_cons, hreports.memories, hmt.memory]
    congr 1
    exact List.map_congr_left fun j hj => h.memory (hleads j hj)
  described mt' hmt' := by
    rcases List.mem_cons.mp hmt' with rfl | hmt'
    · exact ⟨id, List.mem_cons_self, hmt⟩
    · obtain ⟨j, hj, hd⟩ := hreports.described mt' hmt'
      have hne : j ∉ [id] := fun h => hid (List.mem_singleton.mp h ▸ hj)
      exact ⟨j, List.mem_cons_of_mem id hj, hd.of_refines h (hleads j hj) hne⟩

/-- What one entry of a node with several constituents contributes. -/
theorem addMemory_step {d : Draft} (a : d.ledger.Accounts s.tree place said)
    (hid : d.ledger.explicitEntry? em = some id) :
    ∃ mt, (s.addMemory n d id).memories = d.memories ++ [mt] ∧ s.Described d.ledger id mt
      ∧ (s.addMemory n d id).ledger.Accounts s.tree place
        (fun e => (said e).meet (.copyIn (d.ledger.member id e && s.wants d.ledger id)))
      ∧ Refines [id] d.ledger (s.addMemory n d id).ledger := by
  obtain ⟨mt, explicit, hmt, hdescribed, ha, href⟩ := memoryTrait_spec (n := n) a hid
  have hadd : (s.addMemory n d id).ledger = (s.memoryTrait d.ledger n id).1
      ∧ (s.addMemory n d id).memories = d.memories ++ [mt] := by
    unfold addMemory
    rw [← Prod.eta (s.memoryTrait d.ledger n id), hmt]
    exact ⟨rfl, rfl⟩
  rw [← hadd.1] at ha href
  exact ⟨mt, hadd.2, hdescribed, ha, href⟩

/-- What the entries of a node with several constituents contribute. -/
theorem addMemory_run {d : Draft} (a : d.ledger.Accounts s.tree place said) (hnodup : ids.Nodup)
    (hspeaks : ∀ id ∈ ids, ∃ e, d.ledger.explicitEntry? e = some id) :
    ∃ reports, (ids.foldl (s.addMemory n) d).memories = d.memories ++ reports
      ∧ s.Reports d.ledger ids reports
      ∧ (ids.foldl (s.addMemory n) d).ledger.Accounts s.tree place
        (fun e => (said e).meet
          (.copyIn (ids.any fun id => d.ledger.member id e && s.wants d.ledger id)))
      ∧ Refines ids d.ledger (ids.foldl (s.addMemory n) d).ledger := by
  induction ids generalizing d said with
  | nil =>
    refine ⟨[], (List.append_nil _).symm, ⟨rfl, fun mt hmt => absurd hmt List.not_mem_nil⟩, ?_,
      .refl [] d.ledger⟩
    exact a.congr (fun _ _ => rfl) fun e _ => Trait.meet_noAccess _
  | cons id ids ih =>
    obtain ⟨hid, hnodup⟩ := List.nodup_cons.mp hnodup
    obtain ⟨em, hem⟩ := hspeaks id List.mem_cons_self
    obtain ⟨mt, hmt, hdescribed, ha, href⟩ := addMemory_step (n := n) a hem
    have hleads (j : EntryId) (hj : j ∈ ids) : d.ledger.Leads j := by
      obtain ⟨e, he⟩ := hspeaks j (List.mem_cons_of_mem id hj)
      exact a.grouped.leads he
    obtain ⟨reports, hmemories, hreports, ha', href'⟩ := ih ha hnodup fun j hj =>
      (hspeaks j (List.mem_cons_of_mem id hj)).imp fun e he =>
        (href.within.explicitEntry?_eq e).trans he
    refine ⟨mt :: reports, ?_, hreports.cons href hleads hid hdescribed, ?_, ?_⟩
    · rw [List.foldl_cons, hmemories, hmt, List.append_assoc]
      rfl
    · refine ha'.congr (fun _ _ => rfl) fun e _ => ?_
      -- Storing `id` changes neither the other groups nor whether they want a copy.
      have hsame (j : EntryId) (hj : j ∈ ids) :
          ((s.addMemory n d id).ledger.member j e && s.wants (s.addMemory n d id).ledger j)
            = (d.ledger.member j e && s.wants d.ledger j) := by
        have hne : j ∉ [id] := fun h => hid (List.mem_singleton.mp h ▸ hj)
        unfold Ledger.member
        rw [href.within.explicitEntry?_eq, href.wants (hleads j hj) hne]
      have hany : ids.any (fun j => (s.addMemory n d id).ledger.member j e
          && s.wants (s.addMemory n d id).ledger j)
          = ids.any fun j => d.ledger.member j e && s.wants d.ledger j := any_congr_of_mem hsame
      rw [List.any_cons, Trait.copyIn_or, ← Trait.meet_assoc, hany]
    · refine (href.mono fun j hj => ?_).trans (href'.mono fun j hj => List.mem_cons_of_mem id hj)
      rw [List.mem_singleton.mp hj]
      exact List.mem_cons_self

/-- Unknown accesses are reported beside the memory and change nothing about it. -/
theorem addUnknown_run (a : l.Accounts s.tree place said) (unknowns : List UnknownEntryId)
    {d : Draft} (hd : d.ledger = l) :
    (unknowns.foldl (addUnknown n) d).memories = d.memories
      ∧ (unknowns.foldl (addUnknown n) d).ledger.Accounts s.tree place said
      ∧ Refines [] l (unknowns.foldl (addUnknown n) d).ledger := by
  induction unknowns generalizing l d with
  | nil => exact ⟨rfl, hd ▸ a, hd ▸ .refl [] l⟩
  | cons u unknowns ih =>
    subst hd
    rw [List.foldl_cons]
    cases hu : d.ledger.unknown? u with
    | none =>
      have heq : addUnknown n d u = d := by
        unfold addUnknown
        rw [hu]
      rw [heq]
      exact ih a rfl
    | some entry =>
      obtain ⟨c, k, hledger, hmemories⟩ : ∃ c k, (addUnknown n d u).ledger = d.ledger.count c k
          ∧ (addUnknown n d u).memories = d.memories := by
        unfold addUnknown
        rw [hu]
        exact ⟨_, _, rfl, rfl⟩
      obtain ⟨hm, ha, href⟩ := ih (a.count c k) hledger
      exact ⟨hm.trans hmemories, ha, (Refines.count c k).trans href⟩

/-- What is stored for a node: nothing if it has no constituents, and else a report for each of its
groups. A node counts as untouched only if its memory does. -/
structure Stored (s : Scope) (n : AliasNodeId) (l : Ledger) (ids : List EntryId)
    (unknowns : List UnknownEntryId) (traits : TraitMap) (place : EstimateId → EstimateId)
    (said : EstimateId → Trait) (r : Ledger × TraitMap) : Prop where
  accounts : r.1.Accounts s.tree place
    fun e => (said e).meet (.copyIn (ids.any fun id => l.member id e && s.wants l id))
  refines : Refines ids l r.1
  elsewhere : ∀ k, k ≠ n → r.2.get? k = traits.get? k
  nothing : ids = [] → unknowns = [] → r.2 = traits
  report : ids ≠ [] ∨ unknowns ≠ [] → ∃ nt, r.2.get? n = some nt ∧ s.Reports l ids nt.memories
    ∧ (nt.categories.has .noAccess = true → ∀ mt ∈ nt.memories, mt.categories.has .noAccess = true)

theorem mixedTrait_spec (a : l.Accounts s.tree place said) (g : l.Gathers ids P)
    (unknowns : List UnknownEntryId) (traits : TraitMap) (hne : ids ≠ [] ∨ unknowns ≠ []) :
    Stored s n l ids unknowns traits place said ((s.mixedTrait l n ids unknowns).1,
      traits.record (s.mixedTrait l n ids unknowns).2) := by
  obtain ⟨reports, hmemories, hreports, ha, href⟩ :=
    addMemory_run (n := n) (d := { ledger := l }) a g.nodup g.speaks
  obtain ⟨hm, ha', href'⟩ := addUnknown_run (n := n) ha unknowns rfl
  constructor
  case accounts => exact ha'
  case refines => exact href.trans (href'.mono fun j hj => absurd hj List.not_mem_nil)
  case elsewhere => exact fun k hk => OrderedMap.get?_insert_of_ne traits _ hk
  case nothing =>
    rintro rfl rfl
    rcases hne with h | h <;> exact absurd rfl h
  case report =>
    refine fun _ => ⟨(s.mixedTrait l n ids unknowns).2, OrderedMap.get?_insert_self .., ?_, ?_⟩
    · have hnt : (s.mixedTrait l n ids unknowns).2.memories = reports := by
        show (unknowns.foldl (addUnknown n)
          (ids.foldl (s.addMemory n) { ledger := l })).memories = _
        rw [hm, hmemories]
        rfl
      rw [hnt]
      exact hreports
    · intro hno
      -- The summary of several constituents always says something about the node.
      have hsummary := Trait.has_noAccess_summary
        (unknowns.foldl (addUnknown n) (ids.foldl (s.addMemory n) { ledger := l })).combined
      change FlagSet.has (if _ then _ else _) _ = true at hno
      split at hno
      · rw [FlagSet.has_union, hsummary, FlagSet.has_singleton] at hno
        cases hno
      · rw [hsummary] at hno
        cases hno

/-- A node with a single group is reported as its memory. -/
theorem singleTrait_spec (a : l.Accounts s.tree place said) (hid : l.explicitEntry? em = some id)
    (traits : TraitMap) :
    Stored s n l [id] [] traits place said (s.storeResults n [id] [] l traits) := by
  obtain ⟨mt, explicit, hmt, hdescribed, ha, href⟩ := memoryTrait_spec (n := n) a hid
  have heq : s.storeResults n [id] [] l traits = ((s.memoryTrait l n id).1,
      traits.record { node := n, categories := mt.categories, memories := [mt] }) := by
    have hr : s.memoryTrait l n id = ((s.memoryTrait l n id).1, some (mt, explicit)) :=
      Prod.ext rfl hmt
    unfold storeResults
    simp only
    rw [hr]
  rw [heq]
  constructor
  case accounts =>
    refine ha.congr (fun _ _ => rfl) fun e _ => ?_
    rw [List.any_cons, List.any_nil, Bool.or_false]
  case refines => exact href
  case elsewhere => exact fun k hk => OrderedMap.get?_insert_of_ne traits _ hk
  case nothing => exact fun h => absurd h (List.cons_ne_nil id [])
  case report =>
    refine fun _ => ⟨_, OrderedMap.get?_insert_self .., ⟨?_, fun mt' hmt' => ?_⟩, ?_⟩
    · exact congrArg (fun m => [m]) hdescribed.memory.symm
    · rw [List.mem_singleton.mp hmt']
      exact ⟨id, List.mem_singleton.mpr rfl, hdescribed⟩
    · -- The categories of the node are those of the memory.
      intro hno mt' hmt'
      rw [List.mem_singleton.mp hmt']
      exact hno

/-- A node with unknown accesses, or with several groups, is summarized. -/
theorem storeResults_of_mixed {unknowns : List UnknownEntryId} (traits : TraitMap)
    (h : unknowns ≠ [] ∨ 1 < ids.length) : s.storeResults n ids unknowns l traits
      = ((s.mixedTrait l n ids unknowns).1, traits.record (s.mixedTrait l n ids unknowns).2) := by
  match ids, unknowns with
  | [], [] => simp at h
  | [id], [] => simp at h
  | [], u :: unknowns => rfl
  | [id], u :: unknowns => rfl
  | id :: id' :: ids, unknowns => rfl

theorem storeResults_spec (a : l.Accounts s.tree place said) (g : l.Gathers ids P)
    (unknowns : List UnknownEntryId) (traits : TraitMap) :
    Stored s n l ids unknowns traits place said (s.storeResults n ids unknowns l traits) := by
  cases unknowns with
  | cons u unknowns =>
    rw [storeResults_of_mixed traits (.inl (List.cons_ne_nil _ _))]
    exact mixedTrait_spec a g (u :: unknowns) traits (.inr (List.cons_ne_nil _ _))
  | nil =>
    match ids, g with
    | [], _ =>
      refine ⟨a.congr (fun _ _ => rfl) fun e _ => Trait.meet_noAccess _, .refl [] l, fun _ _ => rfl,
        fun _ _ => rfl, fun h => ?_⟩
      rcases h with h | h <;> exact absurd rfl h
    | [id], g =>
      obtain ⟨em, hem⟩ := g.speaks id List.mem_cons_self
      exact singleTrait_spec a hem traits
    | id :: id' :: ids, g =>
      exact mixedTrait_spec a g [] traits (.inl (List.cons_ne_nil _ _))

end Privatization.Scope
