import Privatization.Proofs.Ledger.Lists

/-!
# Ledgers before the propagation

Until memory starts to travel, a ledger is *fresh*: every entry leads itself, memory accessed by
name has an entry of its own, and that entry stands in the list of the node its memory lives in. All
a resolver does to memory is to observe something about it (`observe`), which keeps the ledger fresh
and narrows the trait of that memory alone (`Fresh.observe`).
-/

namespace Privatization.Ledger

variable {l : Ledger} {t : AliasTree} {id : EntryId} {em e : EstimateId} {v : Trait}

/-- What is known about memory: nothing but what was observed about it. -/
def traitOf (l : Ledger) (em : EstimateId) : Trait :=
  ((l.explicitEntry? em).map l.value).getD Trait.noAccess

/-- Every memory accessed by name has an entry of its own in the list of its node. -/
structure Fresh (l : Ledger) (t : AliasTree) : Prop where
  led : ∀ (i : Nat) (e : Entry), l.entries[i]? = some e → e.leader = ⟨i⟩
  alone : ∀ (em : EstimateId) (id : EntryId), l.explicit.get? em = some id →
    ∃ e, l.entries[id.index]? = some e ∧ e.memory = em
  nodup : ∀ n, (l.entriesAt n).Nodup
  listed : ∀ n id, id ∈ l.entriesAt n ↔ ∃ em, l.explicit.get? em = some id ∧ t.home em = n
  waiting : ∀ n, l.unknownsAt n ≠ [] ↔ ∃ u ∈ l.unknowns, u.node = n

/-- The ledger of a loop of which only the dependences are known. -/
theorem Fresh.init (dependences : DependenceMap) : Fresh { dependences } t where
  led i e he := by simp at he
  alone em id h := by cases h
  nodup n := List.nodup_nil
  listed n id := by
    constructor
    · intro h
      cases h
    · rintro ⟨em, h, -⟩
      cases h
  waiting n := by
    constructor
    · intro h
      exact absurd rfl h
    · rintro ⟨u, hu, -⟩
      simp at hu

namespace Fresh

/-- In a fresh ledger every entry leads itself. -/
theorem leader_eq (f : l.Fresh t) (id : EntryId) : l.leader id = id := by
  rw [Ledger.leader_eq]
  cases he : l.entries[id.index]? with
  | none => rfl
  | some e => exact f.led id.index e he

/-- The entry of a memory is the one it was entered under. -/
theorem explicitEntry?_eq (f : l.Fresh t) (em : EstimateId) :
    l.explicitEntry? em = l.explicit.get? em := by
  unfold explicitEntry?
  cases h : l.explicit.get? em with
  | none => rfl
  | some id => rw [Option.map_some, f.leader_eq]

/-- The entry of a memory that is accessed by name leads its group. -/
theorem leads (f : l.Fresh t) (h : l.explicit.get? em = some id) : l.Leads id := by
  obtain ⟨e, he, -⟩ := f.alone em id h
  exact ⟨e, he, f.led id.index e he⟩

/-- The entry of a memory that is accessed by name stands for that memory. -/
theorem memory?_eq (f : l.Fresh t) (h : l.explicit.get? em = some id) :
    l.memory? id = some em := by
  obtain ⟨e, he, hmemory⟩ := f.alone em id h
  unfold memory?
  rw [(f.leads h).entry?_eq, he, Option.map_some, hmemory]

/-- No two memories share an entry. -/
theorem injective (f : l.Fresh t) (h : l.explicit.get? em = some id)
    (h' : l.explicit.get? e = some id) : em = e :=
  Option.some.inj ((f.memory?_eq h).symm.trans (f.memory?_eq h'))

/-- A fresh ledger is grouped, every group being one entry. -/
theorem grouped (f : l.Fresh t) : l.Grouped where
  led i e he := by
    have hself := f.led i e he
    exact ⟨e, by rw [hself]; exact he, rfl⟩
  entered em id h := (f.leads h).lt

/-- Every memory stands where it is, and what was said about it is its trait. -/
theorem accounts (f : l.Fresh t) : l.Accounts t (fun em => em) l.traitOf where
  grouped := f.grouped
  stands em id h := by
    refine ⟨em, h, ?_, AliasTree.isEstimateAncestor_refl em⟩
    rw [f.explicitEntry?_eq] at h
    exact f.memory?_eq h
  heard em id h := by
    have hkey : em ∈ l.explicit.keys := mem_explicit_keys.mpr ⟨id, h⟩
    -- The memory is the only member of its group.
    have hmember (k : EstimateId) : l.member id k = decide (k = em) := by
      rw [Bool.eq_iff_iff, member_iff, decide_eq_true_iff]
      constructor
      · intro hk
        rw [f.explicitEntry?_eq] at hk h
        exact f.injective hk h
      · rintro rfl
        exact h
    rw [funext hmember, Trait.meetOver_eq l.explicit.nodup_keys hkey]
    unfold traitOf
    rw [h]
    rfl

/-- The list of a node gathers the memory that lives there. -/
theorem gathers (f : l.Fresh t) (n : AliasNodeId) :
    l.Gathers (l.entriesAt n) fun em => t.home em = n where
  nodup := f.nodup n
  speaks id hid := by
    obtain ⟨em, hem, -⟩ := (f.listed n id).mp hid
    exact ⟨em, (f.explicitEntry?_eq em).trans hem⟩
  holds em id hem := by
    rw [f.explicitEntry?_eq] at hem
    rw [f.listed]
    constructor
    · rintro ⟨e, he, hhome⟩
      rwa [f.injective hem he]
    · intro hhome
      exact ⟨em, hem, hhome⟩

end Fresh

/-! ## Observing -/

/-- Notes an observation about memory that is accessed by name. -/
def observe (l : Ledger) (t : AliasTree) (em : EstimateId) (v : Trait) : Ledger :=
  (l.trackExplicit t em).1.narrow (l.trackExplicit t em).2 v

/-- Memory that has an entry is found again. -/
theorem trackExplicit_of_some (h : l.explicitEntry? em = some id) :
    l.trackExplicit t em = (l, id) := by
  unfold trackExplicit
  rw [h]

/-- Observing memory that has an entry narrows it. -/
theorem observe_of_some (h : l.explicitEntry? em = some id) (v : Trait) :
    l.observe t em v = l.narrow id v := by
  unfold observe
  rw [trackExplicit_of_some h]

/-- Narrowing an entry keeps the ledger fresh: it changes no leader, no memory and no list. -/
theorem Fresh.narrow (f : l.Fresh t) (h : l.Leads id) (v : Trait) : (l.narrow id v).Fresh t where
  led i e he := by
    -- The modified entry keeps its leader, so it is looked at apart.
    rw [Ledger.narrow, entries_modifyEntry h, Array.getElem?_modify] at he
    split at he
    · obtain ⟨e₀, he₀, rfl⟩ := Option.map_eq_some_iff.mp he
      exact f.led i e₀ he₀
    · exact f.led i e he
  alone em j hj := by
    obtain ⟨e, he, hmemory⟩ := f.alone em j hj
    rw [Ledger.narrow, entries_modifyEntry h, Array.getElem?_modify, he]
    split
    · exact ⟨_, rfl, hmemory⟩
    · exact ⟨e, rfl, hmemory⟩
  nodup := f.nodup
  listed := f.listed
  waiting := f.waiting

/-- The ledger with a new entry for memory that had none. -/
theorem trackExplicit_of_none (h : l.explicitEntry? em = none) :
    (l.trackExplicit t em).2 = ⟨l.entries.size⟩
      ∧ (l.trackExplicit t em).1.entries
        = l.entries.push ⟨em, Trait.noAccess, ⟨l.entries.size⟩⟩
      ∧ (l.trackExplicit t em).1.explicit = l.explicit.insert em ⟨l.entries.size⟩
      ∧ (l.trackExplicit t em).1.nodeEntries
        = l.nodeEntries.update (t.home em) [] (· ++ [⟨l.entries.size⟩])
      ∧ (l.trackExplicit t em).1.unknowns = l.unknowns
      ∧ (l.trackExplicit t em).1.nodeUnknowns = l.nodeUnknowns
      ∧ (l.trackExplicit t em).1.dependences = l.dependences := by
  unfold trackExplicit
  rw [h]
  exact ⟨rfl, rfl, rfl, rfl, rfl, rfl, rfl⟩

/-- Entries that are in use are not the next new one. -/
theorem Fresh.ne_next (f : l.Fresh t) (h : l.explicit.get? em = some id) :
    id ≠ ⟨l.entries.size⟩ := by
  rintro rfl
  exact Nat.lt_irrefl _ (f.leads h).lt

/-- After tracking, the memory has the next entry, and the others have theirs. -/
theorem Fresh.get?_trackExplicit (f : l.Fresh t) (h : l.explicitEntry? em = none) :
    (l.trackExplicit t em).1.explicit.get? e = some id ↔
      (e = em ∧ id = ⟨l.entries.size⟩) ∨ l.explicit.get? e = some id := by
  have hnew : l.explicit.get? em = none := (f.explicitEntry?_eq em).symm.trans h
  obtain ⟨-, -, hexplicit, -⟩ := trackExplicit_of_none (t := t) h
  rw [hexplicit]
  by_cases he : e = em
  · rw [he, OrderedMap.get?_insert_self, hnew, Option.some.injEq]
    exact ⟨fun hj => .inl ⟨rfl, hj.symm⟩, fun hj => (hj.resolve_right (by simp)).2.symm⟩
  · rw [OrderedMap.get?_insert_of_ne _ _ he]
    exact ⟨.inr, fun hj => hj.resolve_left fun hj => he hj.1⟩

/-- The new entry is listed last at the node of the memory. -/
theorem entriesAt_trackExplicit_self (h : l.explicitEntry? em = none) :
    (l.trackExplicit t em).1.entriesAt (t.home em)
      = l.entriesAt (t.home em) ++ [⟨l.entries.size⟩] := by
  obtain ⟨-, -, -, hnodes, -⟩ := trackExplicit_of_none (t := t) h
  unfold entriesAt
  rw [hnodes, OrderedMap.get?_update_self]
  rfl

/-- The lists of other nodes stay as they are. -/
theorem entriesAt_trackExplicit_of_ne (h : l.explicitEntry? em = none) {n : AliasNodeId}
    (hn : n ≠ t.home em) : (l.trackExplicit t em).1.entriesAt n = l.entriesAt n := by
  obtain ⟨-, -, -, hnodes, -⟩ := trackExplicit_of_none (t := t) h
  unfold entriesAt
  rw [hnodes, OrderedMap.get?_update_of_ne _ _ _ hn]

/-- The new entry is on no list yet. -/
theorem Fresh.nodup_trackExplicit (f : l.Fresh t) (h : l.explicitEntry? em = none)
    (n : AliasNodeId) : ((l.trackExplicit t em).1.entriesAt n).Nodup := by
  by_cases hn : n = t.home em
  · rw [hn, entriesAt_trackExplicit_self h, List.nodup_append]
    refine ⟨f.nodup _, List.pairwise_singleton .., fun j hj k hk hjk => ?_⟩
    obtain ⟨e, he, -⟩ := (f.listed _ j).mp hj
    exact f.ne_next he (hjk.trans (List.mem_singleton.mp hk))
  · rw [entriesAt_trackExplicit_of_ne h hn]
    exact f.nodup n

/-- The lists say where memory lives, of the new entry as of the others. -/
theorem Fresh.listed_trackExplicit (f : l.Fresh t) (h : l.explicitEntry? em = none)
    (n : AliasNodeId) (j : EntryId) : j ∈ (l.trackExplicit t em).1.entriesAt n ↔
      ∃ e, (l.trackExplicit t em).1.explicit.get? e = some j ∧ t.home e = n := by
  by_cases hn : n = t.home em
  · rw [hn, entriesAt_trackExplicit_self h, List.mem_append, List.mem_singleton, f.listed]
    constructor
    · rintro (⟨e, he, hhome⟩ | rfl)
      · exact ⟨e, (f.get?_trackExplicit h).mpr (.inr he), hhome⟩
      · exact ⟨em, (f.get?_trackExplicit h).mpr (.inl ⟨rfl, rfl⟩), rfl⟩
    · rintro ⟨e, he, hhome⟩
      rcases (f.get?_trackExplicit h).mp he with ⟨-, hj⟩ | he
      · exact .inr hj
      · exact .inl ⟨e, he, hhome⟩
  · rw [entriesAt_trackExplicit_of_ne h hn, f.listed]
    constructor
    · rintro ⟨e, he, hhome⟩
      exact ⟨e, (f.get?_trackExplicit h).mpr (.inr he), hhome⟩
    · rintro ⟨e, he, hhome⟩
      rcases (f.get?_trackExplicit h).mp he with ⟨rfl, -⟩ | he
      · exact absurd hhome.symm hn
      · exact ⟨e, he, hhome⟩

/-- Giving memory its first entry keeps the ledger fresh. -/
theorem Fresh.trackExplicit_new (f : l.Fresh t) (h : l.explicitEntry? em = none) :
    (l.trackExplicit t em).1.Fresh t := by
  obtain ⟨-, hentries, -, -, hunknowns, hwaiting, -⟩ := trackExplicit_of_none (t := t) h
  -- The new entry is the last one, alone in its group.
  constructor
  case led =>
    intro i e he
    rw [hentries, Array.getElem?_push] at he
    split at he
    next hi =>
      cases he
      rw [hi]
    next => exact f.led i e he
  case alone =>
    intro e j hj
    rw [hentries, Array.getElem?_push]
    rcases (f.get?_trackExplicit h).mp hj with ⟨rfl, rfl⟩ | hj
    · exact ⟨_, if_pos rfl, rfl⟩
    · have hlt := (f.leads hj).lt
      rw [if_neg (by omega)]
      exact f.alone e j hj
  case nodup => exact f.nodup_trackExplicit h
  case listed => exact f.listed_trackExplicit h
  case waiting =>
    intro n
    rw [hunknowns, ← f.waiting]
    unfold unknownsAt
    rw [hwaiting]

/-- A new entry says nothing, and the others say what they said. -/
theorem Fresh.traitOf_trackExplicit (f : l.Fresh t) (h : l.explicitEntry? em = none)
    (e : EstimateId) : (l.trackExplicit t em).1.traitOf e = l.traitOf e := by
  have f' := f.trackExplicit_new h
  obtain ⟨-, hentries, hexplicit, -⟩ := trackExplicit_of_none (t := t) h
  have hvalue (j : EntryId) : (l.trackExplicit t em).1.value j
      = (((l.entries.push ⟨em, Trait.noAccess, ⟨l.entries.size⟩⟩)[j.index]?).map (·.value)).getD
          Trait.noAccess := by
    unfold value entry?
    rw [f'.leader_eq, hentries]
  unfold traitOf
  rw [f'.explicitEntry?_eq, hexplicit]
  by_cases he : e = em
  · rw [he, OrderedMap.get?_insert_self, h, Option.map_some, Option.getD_some, hvalue,
      Array.getElem?_push, if_pos rfl]
    rfl
  · rw [OrderedMap.get?_insert_of_ne _ _ he, f.explicitEntry?_eq]
    cases hj : l.explicit.get? e with
    | none => rfl
    | some j =>
      have hlt := (f.leads hj).lt
      rw [Option.map_some, Option.map_some, Option.getD_some, Option.getD_some, hvalue,
        Array.getElem?_push, if_neg (by omega)]
      unfold value entry?
      rw [f.leader_eq]

/-- Tracking memory gives it an entry and says nothing about it. -/
theorem Fresh.trackExplicit (f : l.Fresh t) (em : EstimateId) :
    (l.trackExplicit t em).1.Fresh t
      ∧ Ledger.explicitEntry? (l.trackExplicit t em).1 em = some (l.trackExplicit t em).2
      ∧ (∀ e, (l.trackExplicit t em).1.traitOf e = l.traitOf e)
      ∧ (∀ e, e ∈ (l.trackExplicit t em).1.explicit.keys ↔ e = em ∨ e ∈ l.explicit.keys)
      ∧ (l.trackExplicit t em).1.dependences = l.dependences
      ∧ (l.trackExplicit t em).1.unknowns = l.unknowns := by
  cases h : l.explicitEntry? em with
  | some id =>
    rw [trackExplicit_of_some h]
    refine ⟨f, h, fun _ => rfl, fun e => ⟨.inr, ?_⟩, rfl, rfl⟩
    rintro (rfl | he)
    · exact mem_explicit_keys.mpr ⟨id, h⟩
    · exact he
  | none =>
    have f' := f.trackExplicit_new h
    have htrait := f.traitOf_trackExplicit h
    obtain ⟨hid, -, hexplicit, -, hunknowns, -, hdependences⟩ := trackExplicit_of_none (t := t) h
    refine ⟨f', ?_, htrait, fun e => ?_, hdependences, hunknowns⟩
    · rw [f'.explicitEntry?_eq, hid, hexplicit, OrderedMap.get?_insert_self]
    · rw [hexplicit]
      exact OrderedMap.mem_keys_insert

/-- Narrowing the entry of a memory narrows the trait of that memory alone. -/
theorem Fresh.traitOf_narrow (f : l.Fresh t) (h : l.explicitEntry? em = some id) (v : Trait)
    (e : EstimateId) :
    (l.narrow id v).traitOf e = if e = em then (l.traitOf e).meet v else l.traitOf e := by
  have hleads := f.grouped.leads h
  unfold traitOf
  rw [explicitEntry?_narrow]
  by_cases he : e = em
  · rw [if_pos he, he, h]
    exact value_narrow_self hleads v
  · rw [if_neg he]
    cases hj : l.explicitEntry? e with
    | none => rfl
    | some j =>
      have hne : j ≠ id := by
        rintro rfl
        rw [f.explicitEntry?_eq] at h hj
        exact he (f.injective hj h)
      exact value_narrow_of_ne hleads (f.grouped.leads hj) hne v

/-- Observing narrows the trait of one memory. -/
theorem Fresh.observe (f : l.Fresh t) (em : EstimateId) (v : Trait) :
    (l.observe t em v).Fresh t
      ∧ (∀ e, (l.observe t em v).traitOf e = if e = em then (l.traitOf e).meet v else l.traitOf e)
      ∧ (∀ e, e ∈ (l.observe t em v).explicit.keys ↔ e = em ∨ e ∈ l.explicit.keys)
      ∧ (l.observe t em v).dependences = l.dependences
      ∧ (l.observe t em v).unknowns = l.unknowns := by
  obtain ⟨f', hentry, htrait, hkeys, hdependences, hunknowns⟩ := f.trackExplicit em
  refine ⟨f'.narrow (f'.grouped.leads hentry) v, fun e => ?_, hkeys, hdependences, hunknowns⟩
  rw [Ledger.observe, f'.traitOf_narrow hentry, htrait]

/-! ## Unknown accesses -/

/-- Tracking an unknown access puts it on the list of its node and leaves memory alone. -/
theorem Fresh.addUnknown (f : l.Fresh t) (inst : InstId) (node : AliasNodeId) (v : Trait) :
    (l.addUnknown inst node v).1.Fresh t where
  led := f.led
  alone := f.alone
  nodup := f.nodup
  listed := f.listed
  waiting n := by
    have hunknowns : (l.addUnknown inst node v).1.unknowns = l.unknowns.push ⟨inst, node, v⟩ := rfl
    have hat : (l.addUnknown inst node v).1.unknownsAt n = ((l.nodeUnknowns.update node []
        (· ++ [⟨l.unknowns.size⟩])).get? n).getD [] := rfl
    rw [hunknowns, hat]
    by_cases hn : n = node
    · rw [hn, OrderedMap.get?_update_self]
      refine ⟨fun _ => ⟨⟨inst, node, v⟩, Array.mem_push_self, rfl⟩, fun _ => ?_⟩
      exact List.append_ne_nil_of_right_ne_nil _ (List.cons_ne_nil _ _)
    · rw [OrderedMap.get?_update_of_ne _ _ _ hn]
      refine (f.waiting n).trans ⟨?_, ?_⟩
      · rintro ⟨u, hu, hnode⟩
        exact ⟨u, Array.mem_push_of_mem _ hu, hnode⟩
      · rintro ⟨u, hu, hnode⟩
        rcases Array.mem_push.mp hu with hu | rfl
        · exact ⟨u, hu, hnode⟩
        · exact absurd hnode.symm hn

end Privatization.Ledger
