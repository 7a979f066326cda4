import Privatization.Proofs.Resolution.Passes

/-!
# The pass over pointers at once

The pass over pointers goes through the accesses one by one and demotes memory on the way, also
memory that a later access loads its pointer from. It might as well judge every access by the ledger
it began with and demote all at once (`resolvePointers_eq`): a demoted memory moves a pointer exactly
like before (`is_readonly_demoted`), and tolerates no more (`tolerates_demoted`). What is demoted is
the group of an entry.
-/

namespace Privatization

namespace Ledger

variable {l : Ledger} {p : EntryId → Bool} {id : EntryId}

/-! ## Demoting at once -/

/-- The ledger with every entry that satisfies `p` demoted to a dependence. -/
def demote (l : Ledger) (p : EntryId → Bool) : Ledger :=
  { l with entries := l.entries.mapIdx fun i e =>
      { e with value := e.value.meet (.onlyIf (p ⟨i⟩) .dependency) } }

theorem getElem?_demote (l : Ledger) (p : EntryId → Bool) (i : Nat) :
    (l.demote p).entries[i]? = (l.entries[i]?).map fun e =>
      { e with value := e.value.meet (.onlyIf (p ⟨i⟩) .dependency) } :=
  Array.getElem?_mapIdx

theorem demote_none (l : Ledger) : l.demote (fun _ => false) = l := by
  have hentries : (l.demote fun _ => false).entries = l.entries := by
    apply Array.ext_getElem?
    intro i
    rw [getElem?_demote]
    cases l.entries[i]? with
    | none => rfl
    | some e => exact congrArg (fun v => some { e with value := v }) (Trait.meet_noAccess e.value)
  exact congrArg (fun entries => { l with entries }) hentries

theorem leader_demote (j : EntryId) : (l.demote p).leader j = l.leader j := by
  rw [leader_eq, leader_eq, getElem?_demote, Option.map_map]
  rfl

theorem explicitEntry?_demote (em : EstimateId) :
    explicitEntry? (l.demote p) em = l.explicitEntry? em := by
  unfold explicitEntry?
  rw [funext leader_demote]
  rfl

theorem Leads.demote (h : l.Leads id) (p : EntryId → Bool) : (l.demote p).Leads id := by
  obtain ⟨e, he, hid⟩ := h
  refine ⟨{ e with value := e.value.meet (.onlyIf (p ⟨id.index⟩) .dependency) }, ?_, hid⟩
  rw [getElem?_demote, he]
  rfl

theorem value_demote (h : l.Leads id) :
    (l.demote p).value id = (l.value id).meet (.onlyIf (p id) .dependency) := by
  unfold value
  rw [(h.demote p).entry?_eq, h.entry?_eq, getElem?_demote]
  obtain ⟨e, he, -⟩ := h
  rw [he]
  rfl

/-- One more entry is demoted. -/
theorem narrow_demote (h : l.Leads id) :
    (l.demote p).narrow id .dependency = l.demote fun j => p j || decide (j = id) := by
  have hentries : ((l.demote p).narrow id .dependency).entries
      = (l.demote fun j => p j || decide (j = id)).entries := by
    apply Array.ext_getElem?
    intro i
    rw [narrow, entries_modifyEntry (h.demote p), Array.getElem?_modify, getElem?_demote,
      getElem?_demote, Option.map_map]
    cases l.entries[i]? with
    | none => rw [Option.map_none, Option.map_none, Option.map_none, ite_self]
    | some e =>
      simp only [Option.map_some, Trait.onlyIf_or, ← Trait.meet_assoc]
      by_cases hi : id.index = i
      · rw [if_pos hi, decide_eq_true (by rw [← hi])]
        rfl
      · have hne : EntryId.mk i ≠ id := fun heq => hi (congrArg EntryId.index heq).symm
        rw [if_neg hi, decide_eq_false hne]
        exact congrArg (fun v => some { e with value := v }) (Trait.meet_noAccess _).symm
  exact congrArg (fun entries => { l with entries }) hentries

/-! ### What a demotion leaves -/

theorem Fresh.demote {t : AliasTree} (f : l.Fresh t) (p : EntryId → Bool) :
    (l.demote p).Fresh t where
  led i e he := by
    rw [getElem?_demote] at he
    obtain ⟨e₀, he₀, rfl⟩ := Option.map_eq_some_iff.mp he
    exact f.led i e₀ he₀
  alone em id h := by
    obtain ⟨e, he, hmemory⟩ := f.alone em id h
    rw [getElem?_demote, he]
    exact ⟨_, rfl, hmemory⟩
  nodup := f.nodup
  listed := f.listed
  waiting := f.waiting

/-- What is known about memory is demoted with its group. -/
theorem Grouped.traitOf_demote (g : l.Grouped) (p : EntryId → Bool) (em : EstimateId) :
    (l.demote p).traitOf em
      = (l.traitOf em).meet (.onlyIf ((l.explicitEntry? em).any p) .dependency) := by
  unfold traitOf
  rw [explicitEntry?_demote]
  cases hid : l.explicitEntry? em with
  | none => exact (Trait.meet_noAccess _).symm
  | some id => exact value_demote (g.leads hid)

end Ledger

namespace Scope

variable {s : Scope} {l : Ledger} {id : EntryId} {em : EstimateId} {loc : MemoryLocation}
  {done todo : List MemoryLocation}

/-! ## What a demotion does not change -/

/-- A memory that does not tolerate a moving pointer is no less written to once it is a
dependence. -/
theorem is_readonly_demoted {v : Trait} {b : Bool} :
    (v.meet (.onlyIf (!toleratesMovingPointer v && b) .dependency)).is .readonly
      = v.is .readonly := by
  cases hv : toleratesMovingPointer v with
  | true => exact congrArg (Trait.is · _) (Trait.meet_noAccess v)
  | false =>
    unfold toleratesMovingPointer at hv
    rw [Bool.or_eq_false_iff, Bool.or_eq_false_iff] at hv
    cases b with
    | false => exact congrArg (Trait.is · _) (Trait.meet_noAccess v)
    | true =>
      rw [hv.1.2]
      obtain ⟨access, address⟩ := v
      cases access <;> rfl

/-- A value that is demoted tolerates a moving pointer afterwards exactly if it did before. -/
theorem tolerates_demoted {v : Trait} {b : Bool} :
    toleratesMovingPointer (v.meet (.onlyIf (!toleratesMovingPointer v && b) .dependency))
      = toleratesMovingPointer v := by
  cases hv : toleratesMovingPointer v with
  | true => exact (congrArg toleratesMovingPointer (Trait.meet_noAccess v)).trans hv
  | false =>
    cases b with
    | false => exact (congrArg toleratesMovingPointer (Trait.meet_noAccess v)).trans hv
    | true =>
      obtain ⟨access, address⟩ := v
      cases access <;> rfl

/-! ## What the pass does, judged by one ledger -/

/-- An access concerns the group that `id` leads, and is through a pointer that the loop may
change. -/
def endangers (s : Scope) (l : Ledger) (id : EntryId) (loc : MemoryLocation) : Bool :=
  decide ((s.tree.find? loc).bind l.explicitEntry? = some id) && (s.pointer? loc).any (s.mayMove l)

/-- The accesses `done` demote the group that `id` leads. -/
def demotedBy (s : Scope) (l : Ledger) (done : List MemoryLocation) (id : EntryId) : Bool :=
  !toleratesMovingPointer (l.value id) && done.any (s.endangers l id)

/-- Pointers move after the accesses `done` as before. -/
theorem mayMove_demote (g : l.Grouped) (done : List MemoryLocation) :
    s.mayMove (l.demote (s.demotedBy l done)) = s.mayMove l := by
  funext pointer
  unfold mayMove
  rw [funext Ledger.explicitEntry?_demote]
  cases hid : (s.tree.find? pointer).bind l.explicitEntry? with
  | none => rfl
  | some id =>
    obtain ⟨em, -, hem⟩ := Option.bind_eq_some_iff.mp hid
    rw [Option.any_some, Option.any_some, Ledger.value_demote (g.leads hem)]
    exact congrArg (!·) is_readonly_demoted

/-- Accesses demote after a demotion what they demoted before it. -/
theorem demotes_demote (g : l.Grouped) (done : List MemoryLocation) (loc : MemoryLocation)
    (em : EstimateId) :
    s.demotes (l.demote (s.demotedBy l done)) loc em = s.demotes l loc em := by
  cases hid : l.explicitEntry? em with
  | none =>
    rw [demotes_of_none hid, demotes_of_none ((Ledger.explicitEntry?_demote em).trans hid)]
  | some id =>
    rw [demotes_of_some hid, demotes_of_some ((Ledger.explicitEntry?_demote em).trans hid),
      mayMove_demote g, Ledger.value_demote (g.leads hid)]
    exact congrArg (! · && (s.pointer? loc).any (s.mayMove l)) tolerates_demoted

/-- An access endangers the group of its memory and no other. -/
theorem endangers_eq (h : s.tree.find? loc = some em) (id : EntryId) : s.endangers l id loc
    = (decide (l.explicitEntry? em = some id) && (s.pointer? loc).any (s.mayMove l)) := by
  unfold endangers
  rw [h, Option.bind_some]

/-- One access more demotes the group of its memory. -/
theorem demotedBy_concat (h : s.tree.find? loc = some em) (id : EntryId) :
    s.demotedBy l (done ++ [loc]) id = (s.demotedBy l done id
      || (decide (l.explicitEntry? em = some id) && s.demotes l loc em)) := by
  have hconcat : s.demotedBy l (done ++ [loc]) id = (s.demotedBy l done id
      || (!toleratesMovingPointer (l.value id) && s.endangers l id loc)) := by
    unfold demotedBy
    rw [List.any_append, List.any_cons, List.any_nil, Bool.or_false, Bool.and_or_distrib_left]
  rw [hconcat, endangers_eq h]
  congr 1
  by_cases hid : l.explicitEntry? em = some id
  · rw [decide_eq_true hid, demotes_of_some hid, Bool.true_and, Bool.true_and]
  · rw [decide_eq_false hid, Bool.false_and, Bool.false_and, Bool.and_false]

/-- One access more, after the accesses `done` demoted what they do. -/
theorem resolvePointer_demote (g : l.Grouped) (h : s.tree.find? loc = some em) :
    s.resolvePointer (l.demote (s.demotedBy l done)) loc
      = .ok (l.demote (s.demotedBy l (done ++ [loc]))) := by
  rw [resolvePointer_of_found h, demotes_demote g, funext (demotedBy_concat h)]
  cases hd : s.demotes l loc em with
  | false =>
    simp only [Bool.and_false, Bool.or_false]
    rfl
  | true =>
    cases hid : l.explicitEntry? em with
    | none =>
      rw [demotes_of_none hid] at hd
      cases hd
    | some id =>
      have hself (j : EntryId) : decide (some id = some j) = decide (j = id) :=
        decide_eq_decide.mpr ⟨fun h => (Option.some.inj h).symm, fun h => congrArg some h.symm⟩
      rw [if_pos rfl, Ledger.observe_of_some ((Ledger.explicitEntry?_demote em).trans hid),
        Ledger.narrow_demote (g.leads hid)]
      simp only [hself, Bool.and_true]

/-- The accesses `todo` after the accesses `done`. -/
theorem runSteps_resolvePointer (g : l.Grouped)
    (hfound : ∀ loc ∈ todo, (s.tree.find? loc).isSome = true) :
    runSteps s.resolvePointer (l.demote (s.demotedBy l done)) todo
      = (l.demote (s.demotedBy l (done ++ todo)), .ok ()) := by
  induction todo generalizing done with
  | nil =>
    rw [List.append_nil]
    rfl
  -- Every step is judged by `l`, however much was demoted before it.
  | cons loc todo ih =>
    obtain ⟨em, hem⟩ := Option.isSome_iff_exists.mp (hfound loc List.mem_cons_self)
    unfold runSteps
    rw [resolvePointer_demote g hem, List.append_cons done loc todo]
    exact ih fun loc' hloc' => hfound loc' (List.mem_cons_of_mem loc hloc')

/-- Accesses in any order demote what they demote at once. -/
theorem runSteps_resolvePointer_start (g : l.Grouped)
    (hfound : ∀ loc ∈ todo, (s.tree.find? loc).isSome = true) :
    runSteps s.resolvePointer l todo = (l.demote (s.demotedBy l todo), .ok ()) := by
  have hstart : l.demote (s.demotedBy l []) = l := by
    have hnone : s.demotedBy l [] = fun _ => false := funext fun _ => Bool.and_false _
    rw [hnone, Ledger.demote_none]
  have hrun : runSteps s.resolvePointer (l.demote (s.demotedBy l [])) todo
      = (l.demote (s.demotedBy l ([] ++ todo)), .ok ()) := runSteps_resolvePointer g hfound
  rw [hstart, List.nil_append] at hrun
  exact hrun

/-- The pass over pointers demotes at once what it demotes. -/
theorem resolvePointers_eq (g : l.Grouped)
    (hfound : ∀ loc ∈ s.defUse.explicit, (s.tree.find? loc).isSome = true) :
    s.resolvePointers l = (l.demote (s.demotedBy l s.defUse.explicit), .ok ()) :=
  runSteps_resolvePointer_start g hfound

/-! ## What is noted of a demotion -/

theorem Noted.demote {d : DependenceMap} {named : EstimateId → Prop}
    {trait trait' : EstimateId → Trait} (h : Noted s d named trait l) (p : EntryId → Bool)
    (htrait : ∀ em, trait' em
      = (trait em).meet (.onlyIf ((l.explicitEntry? em).any p) .dependency)) :
    Noted s d named trait' (l.demote p) where
  fresh := h.fresh.demote p
  dependences := h.dependences
  keys := h.keys
  trait em := by rw [h.fresh.grouped.traitOf_demote, h.trait, htrait]
  unknowns := h.unknowns

end Scope

end Privatization
