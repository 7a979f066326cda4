import Privatization.Proofs.Alias.Growth
import Privatization.Proofs.Facts.Steps

/-!
# Numbers in range

The facts of a function name values and instructions by number. A statement gets such a number from
a declaration before it, numbers are only ever added at the end, and so every number in the facts of
a function that is read from a text is in range (`inRange_of_read`). As far as numbers go,
`Draft.Step` tells all that one statement may do.
-/

namespace Privatization

/-- The numbers in a def-use summary are in range for a function. -/
def DefUse.InRange (f : Function) (d : DefUse) : Prop :=
  (∀ loc ∈ d.explicit, loc.ptr.index < f.values.size)
    ∧ ∀ inst ∈ d.unknowns, inst.index < f.instructions.size

/-- The alias tree of a function is well formed, and the numbers in its facts are in range. -/
structure Function.InRange (f : Function) : Prop where
  tree : ∀ t, f.aliasTree = some t → t.WellFormed
  fronts : ∀ t, f.aliasTree = some t → ∀ m ∈ t.estimates, m.front.index < f.values.size
  summaries : ∀ p ∈ f.defUse.toList, p.2.InRange f

/-- What was added at the end of a function leaves a summary in range. -/
theorem DefUse.InRange.mono {f g : Function} {d : DefUse} (h : d.InRange f)
    (hvalues : f.values.size ≤ g.values.size)
    (hinstructions : f.instructions.size ≤ g.instructions.size) : d.InRange g :=
  ⟨fun loc hloc => Nat.lt_of_lt_of_le (h.1 loc hloc) hvalues,
    fun inst hinst => Nat.lt_of_lt_of_le (h.2 inst hinst) hinstructions⟩

namespace Facts

open Statement

variable {b b' : Draft} {s : Statement}

/-! ## Names that are resolved -/

/-- A name that is resolved to a value gives a number in range. -/
theorem value_lt {name : String} {v : ValueId} (h : b.value name = .ok v) :
    v.index < b.function.values.size := by
  obtain ⟨i, hi, rfl⟩ := Option.map_eq_some_iff.mp (declared_eq_ok h)
  exact (Array.findIdx?_eq_some_iff_getElem.mp hi).1

/-- The base of an accepted location is a value in range. -/
theorem location_lt {d : Datum} {loc : MemoryLocation} (h : b.location d = .ok loc) :
    loc.ptr.index < b.function.values.size := by
  cases d with
  | location name size =>
    obtain ⟨ptr, hptr, rfl⟩ := map_eq_ok h
    exact value_lt hptr
  | number n => cases h
  | name t => cases h
  | text t => cases h
  | unknown => cases h
  | list ds => cases h

/-- The bases of all locations under a key are values in range. -/
theorem locations_lt {key : String} {locs : List MemoryLocation}
    (h : b.locations s key = .ok locs) : ∀ loc ∈ locs, loc.ptr.index < b.function.values.size := by
  unfold Draft.locations at h
  split at h
  · intro loc hloc
    obtain ⟨d, -, hd⟩ := exists_of_mem_mapM h hloc
    exact location_lt hd
  · cases h
    exact List.forall_mem_nil _

/-! ## What a statement does -/

/-- What a statement does to a function under construction, as far as numbers go. -/
inductive Draft.Step (b : Draft) : Draft → Prop
  | value (v : Value) : Step b { b with function := b.function.addValue v }
  | inst (label : String) (block : BlockId) (op : Operation) : Step b { b with
      function := (b.function.addInstruction block op).1
      instLabels := b.instLabels.insert label (b.function.addInstruction block op).2 }
  | node {t : AliasTree} {parent n : AliasNodeId} {kind : AliasNodeKind}
      (h : b.tree.addNode parent kind = .ok (t, n)) (labels : OrderedMap String AliasNodeId) :
      Step b { b.withTree t with nodeLabels := labels }
  | estimate {t : AliasTree} {node : AliasNodeId} {pointers : List ValueId} {size : Option Nat}
      {offset : Nat} {parent : Option EstimateId} {e : EstimateId}
      (h : b.tree.addEstimate node pointers size offset parent = .ok (t, e))
      (hpointers : ∀ v ∈ pointers, v.index < b.function.values.size)
      (labels : OrderedMap String EstimateId) :
      Step b { b.withTree t with estimateLabels := labels }
  | unknown {t : AliasTree} {node : AliasNodeId} {inst : InstId}
      (h : b.tree.addUnknown node inst = .ok t) : Step b (b.withTree t)
  | access (loop : LoopId) (extend : DefUse → DefUse)
      (hexplicit : ∀ d, ∀ loc ∈ (extend d).explicit,
        loc ∈ d.explicit ∨ loc.ptr.index < b.function.values.size)
      (hunknowns : ∀ d, ∀ inst ∈ (extend d).unknowns,
        inst ∈ d.unknowns ∨ ∃ label, b.instLabels.get? label = some inst) :
      Step b { b with
        function := { b.function with defUse := b.function.defUse.update loop ∅ extend } }
  | aside (f : Function) (hvalues : f.values = b.function.values)
      (hinstructions : f.instructions = b.function.instructions)
      (htree : f.aliasTree = b.function.aliasTree) (hdefUse : f.defUse = b.function.defUse) :
      Step b { b with function := f }

/-- A declaration is such a step. -/
theorem Draft.Adds.step {name : String} {sort : Declared} (h : b.Adds s name sort b') :
    b.Step b' := by
  cases h with
  | value v => exact .value v
  | inst block op => exact .inst name block op
  | node _ _ _ h => exact .node h _
  | estimate _ hpointers _ h =>
    refine .estimate h (fun v hv => ?_) _
    obtain ⟨p, hp⟩ := hpointers v hv
    exact value_lt hp
  | loop => exact .aside _ rfl rfl rfl rfl

/-- An accepted declaring statement is a step. -/
theorem Draft.Declaration.step {sort : Declared} (h : b.Declaration s sort b') : b.Step b' := by
  obtain ⟨name, -, h⟩ := h
  exact h.step

/-- An instruction of unknown effect is entered in one node of the alias tree. -/
theorem addUnknown_step (s : Statement) : Ensures b.Step (b.addUnknown s) := by
  refine .bind fun label _ => .bind fun inst _ => .bind fun name _ => .bind fun node _ => ?_
  exact .bind fun t ht => .ok (.unknown (mapError_eq_ok ht))

/-- What is appended unless it is there is the only new item. -/
theorem mem_appendNew {α : Type} [DecidableEq α] {as : List α} {a c : α}
    (h : c ∈ appendNew as a) : c ∈ as ∨ c = a := by
  unfold appendNew at h
  split at h
  · exact .inl h
  · exact (List.mem_append.mp h).imp_right List.mem_singleton.mp

section Summaries

variable {α β : Type} {as : List α} {d : DefUse}

/-- What a summary lists of one kind after items of that kind were added. -/
theorem mem_foldl_of_add {add : DefUse → α → DefUse} {view : DefUse → List α}
    (hadd : ∀ d a, ∀ c ∈ view (add d a), c ∈ view d ∨ c = a) {c : α}
    (h : c ∈ view (as.foldl add d)) : c ∈ view d ∨ c ∈ as := by
  induction as generalizing d with
  | nil => exact .inl h
  | cons a as ih =>
    rcases ih h with h | h
    · rcases hadd d a c h with h | rfl
      · exact .inl h
      · exact .inr List.mem_cons_self
    · exact .inr (List.mem_cons_of_mem a h)

/-- Items of other kinds do not matter. -/
theorem foldl_of_keep (view : DefUse → β) (add : DefUse → α → DefUse)
    (hkeep : ∀ d a, view (add d a) = view d) : view (as.foldl add d) = view d := by
  induction as generalizing d with
  | nil => rfl
  | cons a as ih => exact ih.trans (hkeep d a)

end Summaries

/-- The facts of a loop extend its summary by locations and instructions that are resolved. -/
theorem addAccess_step (s : Statement) : Ensures b.Step (b.addAccess s) := by
  refine .bind fun name _ => .bind fun loop _ => .bind fun explicit hexplicit => ?_
  refine .bind fun uses _ => .bind fun defs _ => .bind fun mayDefs _ => ?_
  refine .bind fun unknowns hunknowns => .bind fun addresses _ => ?_
  refine .ok (.access loop _ (fun d loc hloc => ?_) fun d inst hinst => ?_)
  -- Of the six runs that add items one adds to each list; the others leave it alone.
  · rw [foldl_of_keep DefUse.explicit DefUse.addAddress fun _ _ => rfl,
      foldl_of_keep DefUse.explicit DefUse.addUnknown fun _ _ => rfl,
      foldl_of_keep DefUse.explicit DefUse.addMayDef fun _ _ => rfl,
      foldl_of_keep DefUse.explicit DefUse.addDef fun _ _ => rfl,
      foldl_of_keep DefUse.explicit DefUse.addUse fun _ _ => rfl] at hloc
    refine (mem_foldl_of_add (fun _ _ _ h => mem_appendNew h) hloc).imp_right ?_
    exact locations_lt hexplicit loc
  · rw [foldl_of_keep DefUse.unknowns DefUse.addAddress fun _ _ => rfl] at hinst
    rcases mem_foldl_of_add (fun _ _ _ h => mem_appendNew h) hinst with hinst | hinst
    · rw [foldl_of_keep DefUse.unknowns DefUse.addMayDef fun _ _ => rfl,
        foldl_of_keep DefUse.unknowns DefUse.addDef fun _ _ => rfl,
        foldl_of_keep DefUse.unknowns DefUse.addUse fun _ _ => rfl,
        foldl_of_keep DefUse.unknowns DefUse.addExplicit fun _ _ => rfl] at hinst
      exact .inl hinst
    · obtain ⟨item, -, hitem⟩ := exists_of_mem_mapM hunknowns hinst
      split at hitem
      · exact .inr ⟨_, declared_eq_ok hitem⟩
      · cases hitem

/-- Facts about instructions and blocks leave all numbers aside. -/
theorem Draft.Annotates.step (h : b.Annotates b') : b.Step b' := by
  obtain ⟨live, reach, dependences, modRefs, rfl⟩ := h
  exact .aside _ rfl rfl rfl rfl

/-- Whatever statement is accepted, it does no more than `Draft.Step` says. -/
theorem step_step (s : Statement) : Ensures b.Step (b.step s) := by
  unfold Draft.step
  split
  · exact (addValue_adds s).mono fun _ h => h.step
  · exact (addInst_adds s).mono fun _ h => h.step
  · exact (addAlias_adds s).mono fun _ h => h.step
  · exact (addEstimate_adds s).mono fun _ h => h.step
  · exact addUnknown_step s
  · exact (addLoop_adds s).mono fun _ h => h.step
  · exact addAccess_step s
  · exact (addLive_annotates s).mono fun _ h => h.step
  · exact (setReach_annotates s).mono fun _ h => h.step
  · exact (setDependence_annotates s).mono fun _ h => h.step
  · exact (setModRef_annotates s).mono fun _ h => h.step
  · exact .error

/-! ## What stays in range -/

/-- In a function under construction the numbers in the facts are in range, and so are the
instructions that have labels. -/
structure Draft.InRange (b : Draft) : Prop where
  facts : b.function.InRange
  labels : ∀ p ∈ b.instLabels.toList, p.2.index < b.function.instructions.size

theorem Draft.InRange.tree (r : b.InRange) :
    b.tree.WellFormed ∧ ∀ m ∈ b.tree.estimates, m.front.index < b.function.values.size := by
  unfold Draft.tree
  cases ht : b.function.aliasTree with
  | none => exact ⟨.empty, fun m hm => absurd hm (Array.not_mem_empty m)⟩
  | some t => exact ⟨r.facts.tree t ht, r.facts.fronts t ht⟩

/-- Another alias tree that is in range. -/
theorem Draft.InRange.withTree (r : b.InRange) {t : AliasTree} (ht : t.WellFormed)
    (hfronts : ∀ m ∈ t.estimates, m.front.index < b.function.values.size) :
    (b.withTree t).function.InRange where
  tree := by
    rintro _ ⟨⟩
    exact ht
  fronts := by
    rintro _ ⟨⟩
    exact hfronts
  summaries := r.facts.summaries

/-- One step keeps the numbers in range: what it adds stands at the end of its array, and what it
refers to was resolved. -/
theorem Draft.InRange.step (r : b.InRange) (h : b.Step b') : b'.InRange := by
  obtain ⟨htree, hfronts⟩ := r.tree
  cases h with
  | value v =>
    have hsize : b.function.values.size ≤ (b.function.values.push v).size := by
      rw [Array.size_push]
      exact Nat.le_succ _
    refine ⟨⟨r.facts.tree, fun t ht m hm => ?_, fun p hp => ?_⟩, r.labels⟩
    · exact Nat.lt_of_lt_of_le (r.facts.fronts t ht m hm) hsize
    · exact (r.facts.summaries p hp).mono hsize (Nat.le_refl _)
  | inst label block op =>
    have hsize : b.function.instructions.size
        < (b.function.addInstruction block op).1.instructions.size := by
      show _ < (b.function.instructions.push _).size
      rw [Array.size_push]
      exact Nat.lt_succ_self _
    refine ⟨⟨r.facts.tree, r.facts.fronts, fun p hp => ?_⟩, fun p hp => ?_⟩
    · exact (r.facts.summaries p hp).mono (Nat.le_refl _) (Nat.le_of_lt hsize)
    · rcases OrderedMap.mem_toList_insert hp with rfl | hp
      · exact hsize
      · exact Nat.lt_trans (r.labels p hp) hsize
  | node h labels =>
    obtain ⟨-, -, -, -, hestimates, -⟩ := AliasTree.addNode_eq_ok h
    exact ⟨r.withTree (htree.addNode h) (hestimates ▸ hfronts), r.labels⟩
  | estimate h hpointers labels =>
    obtain ⟨-, -, -, -, -, front, others, rfl, hestimates⟩ := AliasTree.addEstimate_eq_ok h
    refine ⟨r.withTree (htree.addEstimate h) fun m hm => ?_, r.labels⟩
    rw [hestimates] at hm
    rcases Array.mem_push.mp hm with hm | rfl
    · exact hfronts m hm
    · exact hpointers front List.mem_cons_self
  | unknown h =>
    obtain ⟨-, -, hestimates, -⟩ := AliasTree.addUnknown_eq_ok h
    exact ⟨r.withTree (htree.addUnknown h) (hestimates ▸ hfronts), r.labels⟩
  | access loop extend hexplicit hunknowns =>
    -- A loop without summary so far is given the empty one first.
    have hold : ((b.function.defUse.get? loop).getD ∅).InRange b.function := by
      cases hd : b.function.defUse.get? loop with
      | none => exact ⟨List.forall_mem_nil _, List.forall_mem_nil _⟩
      | some d => exact r.facts.summaries (loop, d) (OrderedMap.mem_toList_iff.mpr hd)
    refine ⟨⟨r.facts.tree, r.facts.fronts, fun p hp => ?_⟩, r.labels⟩
    rcases OrderedMap.mem_toList_insert hp with rfl | hp
    · refine ⟨fun loc hloc => ?_, fun inst hinst => ?_⟩
      · exact (hexplicit _ loc hloc).elim (hold.1 loc) fun hlt => hlt
      · rcases hunknowns _ inst hinst with hinst | ⟨label, hlabel⟩
        · exact hold.2 inst hinst
        · exact r.labels (label, inst) (OrderedMap.mem_toList_iff.mpr hlabel)
    · exact r.facts.summaries p hp
  | aside f hvalues hinstructions htree hdefUse =>
    refine ⟨⟨?_, ?_, fun p hp => ?_⟩, ?_⟩
    · rw [htree]
      exact r.facts.tree
    · rw [htree, hvalues]
      exact r.facts.fronts
    · rw [hdefUse] at hp
      exact (r.facts.summaries p hp).mono (hvalues ▸ Nat.le_refl _) (hinstructions ▸ Nat.le_refl _)
    · rw [hinstructions]
      exact r.labels

/-- A function without facts has no number out of range. -/
theorem Draft.InRange.new (name : String) : (Draft.new name).InRange where
  facts :=
    { tree := fun _ h => nomatch h
      fronts := fun _ h => nomatch h
      summaries := List.forall_mem_nil _ }
  labels := List.forall_mem_nil _

/-- The numbers in all that was read so far are in range. -/
structure Loader.InRange (l : Loader) : Prop where
  finished : ∀ f ∈ l.finished, f.InRange
  current : ∀ b, l.current = some b → b.InRange

/-- The function under construction is among the functions read. -/
theorem Loader.InRange.functions {l : Loader} (r : l.InRange) : ∀ f ∈ l.functions, f.InRange := by
  intro f hf
  rcases List.mem_append.mp hf with hf | hf
  · exact r.finished f hf
  · obtain ⟨b, hb, rfl⟩ := Option.map_eq_some_iff.mp (Option.mem_toList.mp hf)
    exact (r.current b hb).facts

/-- One more statement keeps all that was read in range. -/
theorem Loader.InRange.step {l l' : Loader} (r : l.InRange) (h : l.step s = .ok l') :
    l'.InRange := by
  unfold Loader.step at h
  split at h
  · obtain ⟨name, -, rfl⟩ := map_eq_ok h
    refine ⟨r.functions, ?_⟩
    rintro _ ⟨⟩
    exact .new name
  · split at h
    · cases h
    next b hb =>
      obtain ⟨b', hb', rfl⟩ := map_eq_ok h
      refine ⟨r.finished, ?_⟩
      rintro _ ⟨⟩
      exact (r.current b hb).step (step_step s b' hb')

/-- The numbers in the facts of every function that is read from a text are in range. -/
theorem inRange_of_read {text : String} {fs : List Function} (h : read text = .ok fs) :
    ∀ f ∈ fs, f.InRange := by
  obtain ⟨ss, -, h⟩ := bind_eq_ok h
  obtain ⟨l, hl, rfl⟩ := map_eq_ok h
  have hnone : Loader.InRange {} := ⟨List.forall_mem_nil _, fun _ h => nomatch h⟩
  have hrun := foldlM_invariant hnone (fun s l l' r hs => r.step (mapError_eq_ok hs)) hl
  exact hrun.functions

end Facts

end Privatization
