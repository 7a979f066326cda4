import Privatization.Proofs.Ledger.Accounts

/-!
# The lists of a ledger

The list of a node `Gathers` the groups of the memory that reached the node: each group once, and
those groups only. Work on a node touches the groups of its own list and of the lists it takes over
(`Within`), so the lists of all other nodes still gather what they did (`Gathers.within`).
-/

namespace Privatization.Ledger

variable {l l' l'' : Ledger} {t : AliasTree} {ids others : List EntryId} {P Q : EstimateId → Prop}
  {em : EstimateId} {id source target : EntryId}

/-! ## What a list gathers -/

/-- `ids` lists the groups of the memory that satisfies `P`. -/
structure Gathers (l : Ledger) (ids : List EntryId) (P : EstimateId → Prop) : Prop where
  nodup : ids.Nodup
  speaks : ∀ id ∈ ids, ∃ em, l.explicitEntry? em = some id
  holds : ∀ (em : EstimateId) (id : EntryId), l.explicitEntry? em = some id → (id ∈ ids ↔ P em)

namespace Gathers

/-- The order of the list does not matter. -/
theorem perm (g : l.Gathers ids P) (h : ids.Perm others) : l.Gathers others P where
  nodup := h.nodup_iff.mp g.nodup
  speaks id hid := g.speaks id (h.mem_iff.mpr hid)
  holds em id hem := h.mem_iff.symm.trans (g.holds em id hem)

/-- Only memory that is accessed by name matters. -/
theorem congr (g : l.Gathers ids P) (h : ∀ em ∈ l.explicit.keys, P em ↔ Q em) :
    l.Gathers ids Q where
  nodup := g.nodup
  speaks := g.speaks
  holds em id hem := (g.holds em id hem).trans (h em (mem_explicit_keys.mpr ⟨id, hem⟩))

/-- What a listed group speaks for satisfies `P`. -/
theorem holds_of_mem (g : l.Gathers ids P) (h : id ∈ ids) :
    ∃ em, l.explicitEntry? em = some id ∧ P em := by
  obtain ⟨em, hem⟩ := g.speaks id h
  exact ⟨em, hem, (g.holds em id hem).mp h⟩

/-- Lists of memory that nothing has in common have no group in common. -/
theorem disjoint (g : l.Gathers ids P) (h : l.Gathers others Q) (hPQ : ∀ em, P em → ¬Q em) :
    ∀ id ∈ ids, id ∉ others := by
  intro id hid hother
  obtain ⟨em, hem, hP⟩ := g.holds_of_mem hid
  exact hPQ em hP ((h.holds em id hem).mp hother)

theorem append (g : l.Gathers ids P) (h : l.Gathers others Q) (hPQ : ∀ em, P em → ¬Q em) :
    l.Gathers (ids ++ others) fun em => P em ∨ Q em where
  nodup := by
    rw [List.nodup_append]
    refine ⟨g.nodup, h.nodup, fun a ha b hb hab => ?_⟩
    exact g.disjoint h hPQ a ha (hab ▸ hb)
  speaks id hid := by
    rcases List.mem_append.mp hid with hid | hid
    · exact g.speaks id hid
    · exact h.speaks id hid
  holds em id hem := by
    rw [List.mem_append, g.holds em id hem, h.holds em id hem]

/-- The lists of several nodes together gather what each of them does. -/
theorem flatMap {α : Type} {nodes : List α} {list : α → List EntryId} {R : α → EstimateId → Prop}
    (hnodup : nodes.Nodup) (g : ∀ n ∈ nodes, l.Gathers (list n) (R n))
    (hR : ∀ n ∈ nodes, ∀ n' ∈ nodes, ∀ em, R n em → R n' em → n = n') :
    l.Gathers (nodes.flatMap list) fun em => ∃ n ∈ nodes, R n em := by
  induction nodes with
  | nil =>
    refine ⟨List.nodup_nil, fun id hid => absurd hid List.not_mem_nil, fun em id _ => ?_⟩
    exact ⟨fun hid => absurd hid List.not_mem_nil, fun ⟨n, hn, _⟩ => absurd hn List.not_mem_nil⟩
  | cons n nodes ih =>
    obtain ⟨hn, hnodup⟩ := List.nodup_cons.mp hnodup
    have hrest := ih hnodup (fun n' hn' => g n' (List.mem_cons_of_mem n hn'))
      fun i hi j hj => hR i (List.mem_cons_of_mem n hi) j (List.mem_cons_of_mem n hj)
    have happend := (g n List.mem_cons_self).append hrest fun em hem ⟨n', hn', hem'⟩ =>
      hn (hR n List.mem_cons_self n' (List.mem_cons_of_mem n hn') em hem hem' ▸ hn')
    refine happend.congr fun em _ => ?_
    constructor
    · rintro (hem | ⟨n', hn', hem⟩)
      · exact ⟨n, List.mem_cons_self, hem⟩
      · exact ⟨n', List.mem_cons_of_mem n hn', hem⟩
    · rintro ⟨n', hn', hem⟩
      rcases List.mem_cons.mp hn' with rfl | hn'
      · exact .inl hem
      · exact .inr ⟨n', hn', hem⟩

/-- Folding one listed group into another takes it off the list. -/
theorem fold (g : l.Gathers (source :: ids) P) (hl : l.Grouped) (ht : target ∈ ids) :
    (l.fold source target).Gathers ids P := by
  obtain ⟨hsource, hnodup⟩ := List.nodup_cons.mp g.nodup
  obtain ⟨e₁, hs, hP⟩ := g.holds_of_mem List.mem_cons_self
  obtain ⟨e₂, he₂, -⟩ := g.holds_of_mem (List.mem_cons_of_mem source ht)
  have hne : source ≠ target := fun h => hsource (h ▸ ht)
  constructor
  case nodup => exact hnodup
  case speaks =>
    intro j hj
    obtain ⟨e, he⟩ := g.speaks j (List.mem_cons_of_mem source hj)
    have hjs : j ≠ source := fun h => hsource (h ▸ hj)
    by_cases hjt : j = target
    · exact ⟨e, hjt ▸ (explicitEntry?_fold_eq_target hl hs he₂ hne).mpr (.inr (hjt ▸ he))⟩
    · exact ⟨e, (explicitEntry?_fold_of_ne hl hs he₂ hne hjt).mpr ⟨he, hjs⟩⟩
  -- Members of the folded group are now members of the target, which is listed; the other groups
  -- keep theirs.
  case holds =>
    intro e j he
    by_cases hjt : j = target
    · subst hjt
      refine ⟨fun _ => ?_, fun _ => ht⟩
      rcases (explicitEntry?_fold_eq_target hl hs he₂ hne).mp he with he | he
      · exact (g.holds e source he).mp List.mem_cons_self
      · exact (g.holds e j he).mp (List.mem_cons_of_mem source ht)
    · obtain ⟨he, hjs⟩ := (explicitEntry?_fold_of_ne hl hs he₂ hne hjt).mp he
      rw [← g.holds e j he, List.mem_cons]
      exact ⟨.inr, fun h => h.resolve_left hjs⟩

end Gathers

/-! ## Work on some groups only -/

/-- From `l` to `l'`, memory changed groups only among `ids`, other groups stayed where they stand,
and the lists of the nodes and what does not concern entries are as they were. -/
structure Within (ids : List EntryId) (l l' : Ledger) : Prop where
  explicit : l'.explicit = l.explicit
  dependences : l'.dependences = l.dependences
  unknowns : l'.unknowns = l.unknowns
  nodeEntries : l'.nodeEntries = l.nodeEntries
  nodeUnknowns : l'.nodeUnknowns = l.nodeUnknowns
  regroups : ∀ em, l'.explicitEntry? em = l.explicitEntry? em
    ∨ ∃ i ∈ ids, ∃ j ∈ ids, l.explicitEntry? em = some i ∧ l'.explicitEntry? em = some j
  frame : ∀ j, j ∉ ids → l.Leads j → l'.Leads j ∧ l'.memory? j = l.memory? j

namespace Within

theorem refl (ids : List EntryId) (l : Ledger) : Within ids l l :=
  ⟨rfl, rfl, rfl, rfl, rfl, fun _ => .inl rfl, fun _ _ hj => ⟨hj, rfl⟩⟩

theorem mono (h : Within ids l l') (hsub : ∀ id ∈ ids, id ∈ others) : Within others l l' :=
  { h with
    regroups := fun em => (h.regroups em).imp_right fun ⟨i, hi, j, hj, hij⟩ =>
      ⟨i, hsub i hi, j, hsub j hj, hij⟩
    frame := fun j hj => h.frame j fun hjids => hj (hsub j hjids) }

theorem trans (h : Within ids l l') (h' : Within ids l' l'') : Within ids l l'' where
  explicit := h'.explicit.trans h.explicit
  dependences := h'.dependences.trans h.dependences
  unknowns := h'.unknowns.trans h.unknowns
  nodeEntries := h'.nodeEntries.trans h.nodeEntries
  nodeUnknowns := h'.nodeUnknowns.trans h.nodeUnknowns
  regroups em := by
    rcases h.regroups em with h₁ | ⟨i, hi, j, hj, hl, hl'⟩
    · rw [← h₁]
      exact h'.regroups em
    · rcases h'.regroups em with h₂ | ⟨i', -, j', hj', -, hl''⟩
      · exact .inr ⟨i, hi, j, hj, hl, h₂.trans hl'⟩
      · exact .inr ⟨i, hi, j', hj', hl, hl''⟩
  frame j hj hleads := by
    obtain ⟨hleads', hm⟩ := h.frame j hj hleads
    obtain ⟨hleads'', hm'⟩ := h'.frame j hj hleads'
    exact ⟨hleads'', hm'.trans hm⟩

theorem setMemory (hleads : l.Leads id) (hid : id ∈ ids) (m : EstimateId) :
    Within ids l (l.setMemory id m) where
  explicit := rfl
  dependences := rfl
  unknowns := rfl
  nodeEntries := rfl
  nodeUnknowns := rfl
  regroups em := .inl (explicitEntry?_setMemory em m)
  frame j hj hjleads :=
    have hne : j ≠ id := fun h => hj (h ▸ hid)
    ⟨hjleads.modifyEntry hleads (keeps_memory m), memory?_setMemory_of_ne hleads hjleads hne m⟩

theorem narrow (hleads : l.Leads id) (v : Trait) : Within ids l (l.narrow id v) where
  explicit := rfl
  dependences := rfl
  unknowns := rfl
  nodeEntries := rfl
  nodeUnknowns := rfl
  regroups em := .inl (explicitEntry?_narrow em v)
  frame _ _ hjleads :=
    ⟨hjleads.modifyEntry hleads (keeps_value v), memory?_narrow hleads hjleads v⟩

theorem count (c : Categories) (n : UInt64) : Within ids l (l.count c n) :=
  ⟨rfl, rfl, rfl, rfl, rfl, fun _ => .inl rfl, fun _ _ hj => ⟨hj, rfl⟩⟩

theorem fold (hs : l.Leads source) (ht : l.Leads target) (hne : source ≠ target)
    (hsource : source ∈ ids) (htarget : target ∈ ids) : Within ids l (l.fold source target) := by
  have heq := fold_eq hs ht hne
  constructor
  case regroups =>
    intro em
    rw [explicitEntry?_fold hs ht hne]
    split
    next h => exact .inr ⟨source, hsource, target, htarget, h, rfl⟩
    next => exact .inl rfl
  case frame =>
    intro j hj hjleads
    have hjs : j ≠ source := fun h => hj (h ▸ hsource)
    exact ⟨leads_fold hs ht hne hjleads hjs, memory?_fold hs ht hne hjleads hjs⟩
  all_goals
    rw [heq]
    rfl

/-- A group outside the work keeps its members. -/
theorem explicitEntry?_iff (h : Within ids l l') (hid : id ∉ ids) :
    l'.explicitEntry? em = some id ↔ l.explicitEntry? em = some id := by
  rcases h.regroups em with heq | ⟨i, hi, j, hj, hl, hl'⟩
  · rw [heq]
  · rw [hl, hl']
    constructor
    · intro hjid
      exact absurd (Option.some.inj hjid ▸ hj) hid
    · intro hiid
      exact absurd (Option.some.inj hiid ▸ hi) hid

/-- No memory is lost track of. -/
theorem exists_explicitEntry? (h : Within ids l l') (hid : l.explicitEntry? em = some id) :
    ∃ j, l'.explicitEntry? em = some j := by
  rw [← mem_explicit_keys, h.explicit]
  exact mem_explicit_keys.mpr ⟨id, hid⟩

/-- Memory of groups outside the work stays there, and no other joins it. -/
theorem mem_iff {i j : EntryId} (h : Within ids l l') (hi : l.explicitEntry? em = some i)
    (hj : l'.explicitEntry? em = some j) (hdisjoint : ∀ k ∈ ids, k ∉ others) :
    j ∈ others ↔ i ∈ others := by
  rcases h.regroups em with heq | ⟨i', hi', j', hj', hl, hl'⟩
  · rw [heq, hi] at hj
    rw [Option.some.inj hj]
  · obtain rfl : i' = i := Option.some.inj (hl.symm.trans hi)
    obtain rfl : j' = j := Option.some.inj (hl'.symm.trans hj)
    exact ⟨fun hjo => absurd hjo (hdisjoint j' hj'), fun hio => absurd hio (hdisjoint i' hi')⟩

/-- Work on no group changes no groups. -/
theorem explicitEntry?_eq (h : Within [] l l') (em : EstimateId) :
    l'.explicitEntry? em = l.explicitEntry? em := by
  rcases h.regroups em with heq | ⟨i, hi, -⟩
  · exact heq
  · exact absurd hi List.not_mem_nil

end Within

/-- Work on other groups leaves a list as it is. -/
theorem Gathers.within (g : l.Gathers ids P) (h : Within others l l')
    (hdisjoint : ∀ id ∈ ids, id ∉ others) : l'.Gathers ids P where
  nodup := g.nodup
  speaks id hid := by
    obtain ⟨em, hem⟩ := g.speaks id hid
    exact ⟨em, (h.explicitEntry?_iff (hdisjoint id hid)).mpr hem⟩
  holds em id hem := by
    have hex : em ∈ l.explicit.keys := by
      rw [← h.explicit]
      exact mem_explicit_keys.mpr ⟨id, hem⟩
    obtain ⟨i, hi⟩ := mem_explicit_keys.mp hex
    rw [← g.holds em i hi]
    exact h.mem_iff hi hem fun k hk hkid => hdisjoint k hkid hk

/-- Where no memory changed groups, every list gathers what it did. -/
theorem Gathers.congr_ledger (g : l.Gathers ids P)
    (h : ∀ em, l'.explicitEntry? em = l.explicitEntry? em) : l'.Gathers ids P where
  nodup := g.nodup
  speaks id hid := by
    obtain ⟨em, hem⟩ := g.speaks id hid
    exact ⟨em, (h em).trans hem⟩
  holds em id hem := g.holds em id ((h em).symm.trans hem)

/-! ## Other lists -/

/-- The ledger with other lists at its nodes. -/
def relist (entries : OrderedMap AliasNodeId (List EntryId))
    (unknowns : OrderedMap AliasNodeId (List UnknownEntryId)) (l : Ledger) : Ledger :=
  { l with nodeEntries := entries, nodeUnknowns := unknowns }

/-- The lists are no part of the account. -/
theorem Accounts.relist {place : EstimateId → EstimateId} {said : EstimateId → Trait}
    (a : l.Accounts t place said) (entries : OrderedMap AliasNodeId (List EntryId))
    (unknowns : OrderedMap AliasNodeId (List UnknownEntryId)) :
    (Ledger.relist entries unknowns l).Accounts t place said where
  grouped := ⟨a.grouped.led, a.grouped.entered⟩
  stands := a.stands
  heard := a.heard

end Privatization.Ledger
