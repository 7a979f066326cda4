import Privatization.Proofs.Ledger.Fresh

/-!
# Ledgers that can be reached

The operations on a ledger may be used in any order, by the classification of a loop or by whoever
else works on one. Each keeps a `Grouped` ledger grouped as long as it names entries that exist, so
every ledger that can be reached is grouped (`Reached.grouped`).
-/

namespace Privatization.Ledger

variable {l l' : Ledger} {id source target : EntryId} {em : EstimateId} {t : AliasTree}

/-- The operations lead to this ledger from the start of a classification. -/
inductive Reached : Ledger → Prop
  | start (dependences : DependenceMap) : Reached { dependences }
  | addEntry {l : Ledger} (h : Reached l) (memory : EstimateId) (value : Trait) :
    Reached (l.addEntry memory value).1
  /-- What the group of an entry says is overwritten or narrowed. -/
  | modifyEntry {l : Ledger} (h : Reached l) {id : EntryId} (hid : id.index < l.entries.size)
    {f : Entry → Entry} (hf : ∀ e, (f e).leader = e.leader) : Reached (l.modifyEntry id f)
  | fold {l : Ledger} (h : Reached l) {source target : EntryId}
    (hs : source.index < l.entries.size) (ht : target.index < l.entries.size) :
    Reached (l.fold source target)
  | trackExplicit {l : Ledger} (h : Reached l) (t : AliasTree) (em : EstimateId) :
    Reached (l.trackExplicit t em).1
  /-- Something else changes: dependences, statistics, unknown accesses, the lists of the nodes. -/
  | elsewhere {l l' : Ledger} (h : Reached l) (hentries : l'.entries = l.entries)
    (hexplicit : l'.explicit = l.explicit) : Reached l'

/-! ## What groups depend on -/

/-- Groups are read off the entries and the accesses by name. -/
theorem Grouped.congr (g : l.Grouped) (hentries : l'.entries = l.entries)
    (hexplicit : l'.explicit = l.explicit) : l'.Grouped := by
  constructor
  · rw [hentries]
    exact g.led
  · rw [hentries, hexplicit]
    exact g.entered

/-- A new entry leads itself. -/
theorem led_push {e : Entry} (he : e.leader = ⟨l.entries.size⟩) (g : l.Grouped) (i : Nat)
    (e' : Entry) (h : (l.entries.push e)[i]? = some e') :
    ∃ e'', (l.entries.push e)[e'.leader.index]? = some e'' ∧ e''.leader = e'.leader := by
  rw [Array.getElem?_push] at h
  split at h
  next hi =>
    obtain rfl := Option.some.inj h
    refine ⟨e, ?_, rfl⟩
    rw [he, Array.getElem?_push, if_pos rfl]
  next hi =>
    obtain ⟨e'', he'', hself⟩ := g.led i e' h
    have hlt := (Array.getElem?_eq_some_iff.mp he'').1
    refine ⟨e'', ?_, hself⟩
    rw [Array.getElem?_push, if_neg (by omega)]
    exact he''

/-- A new entry is a group of its own. -/
theorem Grouped.addEntry (g : l.Grouped) (memory : EstimateId) (value : Trait) :
    (l.addEntry memory value).1.Grouped where
  led := led_push rfl g
  entered em id h := by
    have hlt := g.entered em id h
    show id.index < (l.entries.push _).size
    rw [Array.size_push]
    omega

/-- An operation on an entry is one on its leader. -/
theorem Grouped.modifyEntry_leader (g : l.Grouped) (hid : id.index < l.entries.size)
    (f : Entry → Entry) : l.modifyEntry id f = l.modifyEntry (l.leader id) f := by
  unfold Ledger.modifyEntry
  rw [(g.leads_leader hid).leader_eq]

/-- Folding entries folds their groups. -/
theorem Grouped.fold_leader (g : l.Grouped) (hs : source.index < l.entries.size)
    (ht : target.index < l.entries.size) :
    l.fold source target = l.fold (l.leader source) (l.leader target) := by
  unfold Ledger.fold
  rw [(g.leads_leader hs).leader_eq, (g.leads_leader ht).leader_eq]

/-- Folding an entry into itself does nothing. -/
theorem fold_self (l : Ledger) (id : EntryId) : l.fold id id = l := by
  unfold Ledger.fold
  rw [if_pos rfl]

/-- Whichever entries of two groups are named, the groups are joined. -/
theorem Grouped.fold_any (g : l.Grouped) (hs : source.index < l.entries.size)
    (ht : target.index < l.entries.size) : (l.fold source target).Grouped := by
  rw [g.fold_leader hs ht]
  by_cases hne : l.leader source = l.leader target
  · rw [hne, fold_self]
    exact g
  · exact Grouped.fold (g.leads_leader hs) (g.leads_leader ht) hne g

/-- Tracking a memory keeps the ledger grouped, whether it has an entry or gets one. -/
theorem Grouped.trackExplicit (g : l.Grouped) (t : AliasTree) (em : EstimateId) :
    (l.trackExplicit t em).1.Grouped := by
  cases h : l.explicitEntry? em with
  | some id =>
    rw [trackExplicit_of_some h]
    exact g
  | none =>
    obtain ⟨-, hentries, hexplicit, -⟩ := trackExplicit_of_none (t := t) h
    constructor
    · rw [hentries]
      exact led_push rfl g
    · intro e id hid
      rw [hexplicit] at hid
      rw [hentries, Array.size_push]
      by_cases he : e = em
      · rw [he, OrderedMap.get?_insert_self] at hid
        rw [← Option.some.inj hid]
        exact Nat.lt_succ_self _
      · rw [OrderedMap.get?_insert_of_ne _ _ he] at hid
        exact Nat.lt_succ_of_lt (g.entered e id hid)

/-- However a ledger is reached, leaders lead themselves and memory accessed by name has entries. -/
theorem Reached.grouped (h : l.Reached) : l.Grouped := by
  induction h with
  | start dependences => exact ⟨fun i e he => by simp at he, fun em id hid => by cases hid⟩
  | addEntry h memory value ih => exact ih.addEntry memory value
  | modifyEntry h hid hf ih =>
    rw [ih.modifyEntry_leader hid]
    exact ih.modifyEntry (ih.leads_leader hid) hf
  | fold h hs ht ih => exact ih.fold_any hs ht
  | trackExplicit h t em ih => exact ih.trackExplicit t em
  | elsewhere h hentries hexplicit ih => exact ih.congr hentries hexplicit

/-- What is reached by narrowing a reached ledger is reached. -/
theorem Reached.narrow (h : l.Reached) (hid : id.index < l.entries.size) (v : Trait) :
    (l.narrow id v).Reached :=
  h.modifyEntry hid (keeps_value v)

/-- The entry to track memory by exists. -/
theorem Grouped.lt_trackExplicit (g : l.Grouped) (t : AliasTree) (em : EstimateId) :
    (l.trackExplicit t em).2.index < (l.trackExplicit t em).1.entries.size := by
  cases h : l.explicitEntry? em with
  | some id =>
    rw [trackExplicit_of_some h]
    exact (g.leads h).lt
  | none =>
    obtain ⟨hid, hentries, -⟩ := trackExplicit_of_none (t := t) h
    rw [hid, hentries, Array.size_push]
    exact Nat.lt_succ_self _

/-- What is reached by observing a memory on a reached ledger is reached. -/
theorem Reached.observe (h : l.Reached) (t : AliasTree) (em : EstimateId) (v : Trait) :
    (l.observe t em v).Reached :=
  (h.trackExplicit t em).narrow (h.grouped.lt_trackExplicit t em) v

end Privatization.Ledger
