import Privatization.Classification.Ledger

/-!
# Groups of a ledger

Entries that were folded together form a group, and one of them leads it. In a `Grouped` ledger
leaders lead themselves and every memory accessed by name has an entry, so what the ledger says
about such a memory is what its leader says. The lemmas below give the group, the memory and the
value of a leader after each operation; nothing after this module looks at the array of entries.
-/

namespace Privatization.Ledger

variable {l : Ledger} {id source target j : EntryId} {em : EstimateId}

/-- Leaders lead themselves, and memory accessed by name has entries. -/
structure Grouped (l : Ledger) : Prop where
  led : ∀ (i : Nat) (e : Entry), l.entries[i]? = some e →
    ∃ e', l.entries[e.leader.index]? = some e' ∧ e'.leader = e.leader
  entered : ∀ (em : EstimateId) (id : EntryId), l.explicit.get? em = some id →
    id.index < l.entries.size

/-- `id` leads a group. -/
def Leads (l : Ledger) (id : EntryId) : Prop :=
  ∃ e, l.entries[id.index]? = some e ∧ e.leader = id

/-! ## Leaders -/

/-- The leader is read off the entry; a number without entry leads itself. -/
theorem leader_eq (l : Ledger) (id : EntryId) :
    l.leader id = ((l.entries[id.index]?).map (·.leader)).getD id := by
  unfold leader
  cases l.entries[id.index]? <;> rfl

theorem leader_of_entry {e : Entry} (h : l.entries[id.index]? = some e) :
    l.leader id = e.leader := by
  unfold leader
  rw [h]

/-- A leader leads itself. -/
theorem Leads.leader_eq (h : l.Leads id) : l.leader id = id := by
  obtain ⟨e, he, hid⟩ := h
  rw [leader_of_entry he, hid]

/-- A leader has an entry. -/
theorem Leads.lt (h : l.Leads id) : id.index < l.entries.size := by
  obtain ⟨e, he, -⟩ := h
  exact (Array.getElem?_eq_some_iff.mp he).1

/-- What a leader says is read off its own entry. -/
theorem Leads.entry?_eq (h : l.Leads id) : l.entry? id = l.entries[id.index]? := by
  unfold entry?
  rw [h.leader_eq]

/-- A group stands at some memory. -/
theorem Leads.exists_memory (h : l.Leads id) : ∃ m, l.memory? id = some m := by
  obtain ⟨e, he, hid⟩ := h
  refine ⟨e.memory, ?_⟩
  unfold memory?
  rw [Leads.entry?_eq ⟨e, he, hid⟩, he]
  rfl

/-- In a grouped ledger, what leads an entry leads a group. -/
theorem Grouped.leads_leader (g : l.Grouped) (h : id.index < l.entries.size) :
    l.Leads (l.leader id) := by
  have he := Array.getElem?_eq_getElem h
  obtain ⟨e', he', hlead⟩ := g.led id.index _ he
  rw [leader_of_entry he]
  exact ⟨e', he', hlead⟩

/-- An entry says what its leader says. -/
theorem Grouped.value_leader (g : l.Grouped) (h : id.index < l.entries.size) :
    l.value (l.leader id) = l.value id := by
  unfold value entry?
  rw [(g.leads_leader h).leader_eq]

/-- Memory accessed by name is spoken for by the leader of its entry. -/
theorem explicitEntry?_of_get? (h : l.explicit.get? em = some id) :
    l.explicitEntry? em = some (l.leader id) := by
  unfold explicitEntry?
  rw [h, Option.map_some]

/-- Memory accessed by name is spoken for by a leader. -/
theorem Grouped.leads (g : l.Grouped) (h : l.explicitEntry? em = some id) : l.Leads id := by
  obtain ⟨first, hfirst, rfl⟩ := Option.map_eq_some_iff.mp h
  exact g.leads_leader (g.entered em first hfirst)

/-- The memory accessed by name is what the ledger has an entry for. -/
theorem mem_explicit_keys : em ∈ l.explicit.keys ↔ ∃ id, l.explicitEntry? em = some id := by
  constructor
  · intro h
    obtain ⟨id, hid⟩ := OrderedMap.mem_keys_iff.mp h
    exact ⟨l.leader id, explicitEntry?_of_get? hid⟩
  · rintro ⟨id, h⟩
    obtain ⟨first, hfirst, -⟩ := Option.map_eq_some_iff.mp h
    exact OrderedMap.mem_keys_iff.mpr ⟨first, hfirst⟩

/-! ## Changing what a leader says -/

section Modify

variable {f : Entry → Entry}

/-- A change through a leader touches its own entry. -/
theorem entries_modifyEntry (h : l.Leads id) :
    (l.modifyEntry id f).entries = l.entries.modify id.index f := by
  unfold modifyEntry
  rw [h.leader_eq]

/-- A change that keeps leaders keeps all groups. -/
theorem leader_modifyEntry (hf : ∀ e, (f e).leader = e.leader) (j : EntryId) :
    (l.modifyEntry id f).leader j = l.leader j := by
  rw [leader_eq, leader_eq, modifyEntry, Array.getElem?_modify]
  split
  · rw [Option.map_map, show (·.leader) ∘ f = (·.leader) from funext hf]
  · rfl

/-- Such a change keeps which group speaks for a memory. -/
theorem explicitEntry?_modifyEntry (hf : ∀ e, (f e).leader = e.leader) (em : EstimateId) :
    explicitEntry? (l.modifyEntry id f) em = l.explicitEntry? em := by
  unfold explicitEntry?
  rw [funext (leader_modifyEntry hf)]
  rfl

/-- The changed group says what the change makes of it. -/
theorem entry?_modifyEntry_self (h : l.Leads id) (hf : ∀ e, (f e).leader = e.leader) :
    entry? (l.modifyEntry id f) id = (l.entry? id).map f := by
  unfold entry?
  rw [leader_modifyEntry hf, h.leader_eq, entries_modifyEntry h, Array.getElem?_modify, if_pos rfl]

/-- Another group says what it said. -/
theorem entry?_modifyEntry_of_ne (h : l.Leads id) (hj : l.Leads j) (hne : j ≠ id)
    (hf : ∀ e, (f e).leader = e.leader) : entry? (l.modifyEntry id f) j = l.entry? j := by
  have hindex : id.index ≠ j.index := fun hi => hne (congrArg EntryId.mk hi).symm
  unfold entry?
  rw [leader_modifyEntry hf, hj.leader_eq, entries_modifyEntry h, Array.getElem?_modify,
    if_neg hindex]

/-- Leaders stay leaders. -/
theorem Leads.modifyEntry (hj : l.Leads j) (h : l.Leads id) (hf : ∀ e, (f e).leader = e.leader) :
    (l.modifyEntry id f).Leads j := by
  obtain ⟨e, he, hlead⟩ := hj
  unfold Leads
  rw [entries_modifyEntry h, Array.getElem?_modify, he]
  split
  · exact ⟨f e, rfl, (hf e).trans hlead⟩
  · exact ⟨e, rfl, hlead⟩

/-- A change that keeps leaders keeps the ledger grouped. -/
theorem Grouped.modifyEntry (g : l.Grouped) (h : l.Leads id) (hf : ∀ e, (f e).leader = e.leader) :
    (l.modifyEntry id f).Grouped where
  led i e he := by
    rw [entries_modifyEntry h, Array.getElem?_modify] at he
    -- Changed or not, the entry is led as it was before.
    have hold : ∃ e₀, l.entries[i]? = some e₀ ∧ e₀.leader = e.leader := by
      split at he
      · obtain ⟨e₀, he₀, rfl⟩ := Option.map_eq_some_iff.mp he
        exact ⟨e₀, he₀, (hf e₀).symm⟩
      · exact ⟨e, he, rfl⟩
    obtain ⟨e₀, he₀, hlead⟩ := hold
    obtain ⟨e', he', hself⟩ := g.led i e₀ he₀
    rw [hlead] at he' hself
    exact Leads.modifyEntry ⟨e', he', hself⟩ h hf
  entered em first hfirst := by
    rw [entries_modifyEntry h, Array.size_modify]
    exact g.entered em first hfirst

end Modify

theorem keeps_memory (m : EstimateId) (e : Entry) :
    ({ e with memory := m } : Entry).leader = e.leader := rfl

theorem keeps_value (v : Trait) (e : Entry) :
    ({ e with value := e.value.meet v } : Entry).leader = e.leader := rfl

/-! ### Memory -/

/-- A group that is moved stands at the new memory. -/
theorem memory?_setMemory_self (h : l.Leads id) (m : EstimateId) :
    (l.setMemory id m).memory? id = some m := by
  unfold memory? setMemory
  rw [entry?_modifyEntry_self h (keeps_memory m)]
  obtain ⟨e, he, hid⟩ := h
  rw [Leads.entry?_eq ⟨e, he, hid⟩, he]
  rfl

/-- Other groups stay where they are. -/
theorem memory?_setMemory_of_ne (h : l.Leads id) (hj : l.Leads j) (hne : j ≠ id) (m : EstimateId) :
    (l.setMemory id m).memory? j = l.memory? j := by
  unfold memory? setMemory
  rw [entry?_modifyEntry_of_ne h hj hne (keeps_memory m)]

/-- No value changes when a group is moved. -/
theorem value_setMemory (h : l.Leads id) (hj : l.Leads j) (m : EstimateId) :
    (l.setMemory id m).value j = l.value j := by
  unfold value setMemory
  -- The changed entry keeps its value, and others are not changed at all.
  by_cases hne : j = id
  · subst hne
    rw [entry?_modifyEntry_self h (keeps_memory m), Option.map_map]
    rfl
  · rw [entry?_modifyEntry_of_ne h hj hne (keeps_memory m)]

theorem explicitEntry?_setMemory (em : EstimateId) (m : EstimateId) :
    explicitEntry? (l.setMemory id m) em = l.explicitEntry? em :=
  explicitEntry?_modifyEntry (keeps_memory m) em

/-! ### Value -/

/-- A narrowed group carries the meet. -/
theorem value_narrow_self (h : l.Leads id) (v : Trait) :
    (l.narrow id v).value id = (l.value id).meet v := by
  unfold value narrow
  rw [entry?_modifyEntry_self h (keeps_value v)]
  obtain ⟨e, he, hid⟩ := h
  rw [Leads.entry?_eq ⟨e, he, hid⟩, he]
  rfl

/-- Other groups keep their value. -/
theorem value_narrow_of_ne (h : l.Leads id) (hj : l.Leads j) (hne : j ≠ id) (v : Trait) :
    (l.narrow id v).value j = l.value j := by
  unfold value narrow
  rw [entry?_modifyEntry_of_ne h hj hne (keeps_value v)]

/-- Narrowing moves no group. -/
theorem memory?_narrow (h : l.Leads id) (hj : l.Leads j) (v : Trait) :
    (l.narrow id v).memory? j = l.memory? j := by
  unfold memory? narrow
  by_cases hne : j = id
  · subst hne
    rw [entry?_modifyEntry_self h (keeps_value v), Option.map_map]
    rfl
  · rw [entry?_modifyEntry_of_ne h hj hne (keeps_value v)]

theorem explicitEntry?_narrow (em : EstimateId) (v : Trait) :
    explicitEntry? (l.narrow id v) em = l.explicitEntry? em :=
  explicitEntry?_modifyEntry (keeps_value v) em

/-! ## Folding -/

section Fold

variable (hs : l.Leads source) (ht : l.Leads target) (hne : source ≠ target)

/-- What folding `source` into another group makes of an entry. -/
def relabel (source target : EntryId) (e : Entry) : Entry :=
  if e.leader = source then { e with leader := target } else e

include hs ht hne

/-- A fold of two groups narrows the target by the value of the source and relabels what the source
led. -/
theorem fold_eq : l.fold source target =
    { l.narrow target (l.value source) with
      entries := (l.narrow target (l.value source)).entries.map (relabel source target) } := by
  unfold fold
  rw [hs.leader_eq, ht.leader_eq]
  exact if_neg hne

/-- What is tracked stays tracked under the same number. -/
theorem explicit_fold : (l.fold source target).explicit = l.explicit := by
  rw [fold_eq hs ht hne]
  rfl

/-- An entry after the fold is the relabelled one of the narrowed ledger. -/
theorem entries_fold (i : Nat) : (l.fold source target).entries[i]? =
    ((l.narrow target (l.value source)).entries[i]?).map (relabel source target) := by
  rw [fold_eq hs ht hne]
  exact Array.getElem?_map ..

/-- The members of the source group follow the target. -/
theorem leader_fold (j : EntryId) :
    (l.fold source target).leader j = if l.leader j = source then target else l.leader j := by
  have hnarrow : (l.narrow target (l.value source)).leader j = l.leader j :=
    leader_modifyEntry (keeps_value _) j
  rw [← hnarrow]
  unfold leader
  rw [entries_fold hs ht hne]
  cases h : (l.narrow target (l.value source)).entries[j.index]? with
  | some e =>
    show (relabel source target e).leader = _
    unfold relabel
    split <;> rfl
  | none =>
    -- An entry that does not exist leads nothing, so it is not the source.
    have hjs : j ≠ source := by
      rintro rfl
      obtain ⟨e, he, -⟩ := hs.modifyEntry ht (keeps_value (l.value j))
      exact absurd (h.symm.trans he) (by simp)
    exact (if_neg hjs).symm

/-- The target speaks for what the source spoke for, and nothing else changes. -/
theorem explicitEntry?_fold (em : EstimateId) : explicitEntry? (l.fold source target) em =
    if l.explicitEntry? em = some source then some target else l.explicitEntry? em := by
  unfold explicitEntry?
  rw [explicit_fold hs ht hne, funext (leader_fold hs ht hne)]
  cases l.explicit.get? em with
  | none => rfl
  | some first =>
    simp only [Option.map_some, Option.some.injEq]
    split <;> rfl

/-- A leader other than the source stays one. -/
theorem leads_fold (hj : l.Leads j) (hjs : j ≠ source) : (l.fold source target).Leads j := by
  obtain ⟨e, he, hlead⟩ := hj.modifyEntry ht (keeps_value (l.value source))
  refine ⟨relabel source target e, ?_, ?_⟩
  · rw [entries_fold hs ht hne]
    exact congrArg (Option.map (relabel source target)) he
  · unfold relabel
    rw [hlead, if_neg hjs, hlead]

/-- A group other than the source says what it says once the target is narrowed. -/
theorem entry?_fold (hj : l.Leads j) (hjs : j ≠ source) : entry? (l.fold source target) j =
    entry? (l.narrow target (l.value source)) j := by
  have hjn : (l.narrow target (l.value source)).Leads j := hj.modifyEntry ht (keeps_value _)
  rw [(leads_fold hs ht hne hj hjs).entry?_eq, entries_fold hs ht hne, hjn.entry?_eq]
  obtain ⟨e, he, hlead⟩ := hjn
  rw [he, Option.map_some]
  unfold relabel
  rw [hlead, if_neg hjs]

/-- A fold moves no group. -/
theorem memory?_fold (hj : l.Leads j) (hjs : j ≠ source) :
    (l.fold source target).memory? j = l.memory? j := by
  rw [← memory?_narrow ht hj (l.value source)]
  unfold memory?
  rw [entry?_fold hs ht hne hj hjs]

/-- The target carries the meet of both values. -/
theorem value_fold_target :
    (l.fold source target).value target = (l.value target).meet (l.value source) := by
  rw [← value_narrow_self ht (l.value source)]
  unfold value
  rw [entry?_fold hs ht hne ht hne.symm]
  rfl

/-- A group that takes no part in the fold keeps its value. -/
theorem value_fold_of_ne (hj : l.Leads j) (hjs : j ≠ source) (hjt : j ≠ target) :
    (l.fold source target).value j = l.value j := by
  rw [← value_narrow_of_ne ht hj hjt (l.value source)]
  unfold value
  rw [entry?_fold hs ht hne hj hjs]
  rfl

/-- A fold keeps the ledger grouped. -/
theorem Grouped.fold (g : l.Grouped) : (l.fold source target).Grouped where
  led i e he := by
    rw [entries_fold hs ht hne] at he
    obtain ⟨e₀, he₀, rfl⟩ := Option.map_eq_some_iff.mp he
    -- What the source led is led by the target now, which leads itself.
    by_cases hsource : e₀.leader = source
    · unfold relabel
      rw [if_pos hsource]
      exact leads_fold hs ht hne ht hne.symm
    · unfold relabel
      rw [if_neg hsource]
      -- An entry of another group keeps its leader, which led before the fold as well.
      have gn : (l.narrow target (l.value source)).Grouped := g.modifyEntry ht (keeps_value _)
      obtain ⟨e', he', hself⟩ := gn.led i e₀ he₀
      refine ⟨relabel source target e', ?_, ?_⟩
      · rw [entries_fold hs ht hne, he']
        rfl
      · unfold relabel
        rw [hself, if_neg hsource, hself]
  entered em first hfirst := by
    rw [explicit_fold hs ht hne] at hfirst
    rw [fold_eq hs ht hne, Array.size_map]
    exact (Array.size_modify ..).symm ▸ g.entered em first hfirst

end Fold

end Privatization.Ledger
