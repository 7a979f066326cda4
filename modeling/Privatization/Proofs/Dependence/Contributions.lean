import Privatization.Proofs.Collection.Folds
import Privatization.Proofs.Dependence.Collection
import Privatization.Proofs.Dependence.Occurrences
import Privatization.Proofs.Resolution.Passes

/-!
# What the pairs contribute

The walk over the pairs of a loop body is one run of notes over a list of contributions
(`collect_eq`), and the list holds what the pairs `Contributes` names give (`mem_contributions`).
The record of a memory is made of what the list says of that memory (`get?_foldlM_enter`). So a kind
is recorded on a memory exactly if one of those pairs contributes it there (`records_collect`).

A load or store is tested against the body from its own place on. An answer that is recorded for
a pair the other way round is never asked for, and counts only as far as other pairs contribute
what it says (`carried_recorded_iff`).
-/

namespace Privatization

/-- Dependences of some kinds on the memory of a location, seen once. -/
structure Contribution where
  location : MemoryLocation
  kinds : CarriedKinds
  marks : DependenceMarks
  distance : Option Distance

/-- What a contribution says of the memory of its location. -/
def Contribution.occurrence (c : Contribution) : Occurrence := ⟨c.kinds, c.marks, c.distance⟩

/-- The map has a record of `em` that holds the kind `k`. -/
def DependenceMap.Records (m : DependenceMap) (em : EstimateId) (k : CarriedKind) : Prop :=
  ∃ r, m.get? em = some r ∧ r.kinds.has k = true

namespace DependenceSource

variable (s : DependenceSource)

/-! ## The list of contributions -/

/-- Enters a contribution into the records. -/
def enter (m : DependenceMap) (c : Contribution) : Except ClassifyError DependenceMap :=
  s.note c.kinds c.marks c.distance m c.location

/-- What the test of two loads or stores gives. -/
def tested (src dst : Instruction) : List Contribution :=
  match src.location?, dst.location?, s.depends src.id dst.id s.loop with
  | some srcLoc, some dstLoc, some dep =>
    match dep.carried? s.loop.depth s.ignoreLoopIndependent with
    | some kinds => [srcLoc, dstLoc].map fun loc =>
        ⟨loc, kinds, {.loadStore} ∪ s.headerMark src, dep.distance? s.loop.depth⟩
    | none => []
  | _, _, _ => []

/-- The circumstances of a dependence that is assumed. -/
def assumedMarks (src dst : Instruction) : DependenceMarks :=
  (if src.isCall || dst.isCall then {.call} else {.unknown}) ∪ {.may, .unknownDistance}
    ∪ s.headerMark src

/-- What is assumed of an instruction without single location and a memory instruction. -/
def assumed (src dst : Instruction) : List Contribution :=
  ((src.operands ++ dst.operands).filter fun loc => !s.untouched src dst loc).map fun loc =>
    ⟨loc, .univ, s.assumedMarks src dst, none⟩

/-- What `src` gives as the source of dependences, `later` being the body from `src` on. -/
def contributionsFrom (body : List Instruction) (src : Instruction) (later : List Instruction) :
    List Contribution :=
  if src.touchesMemory then
    match src.location? with
    | some _ => later.flatMap (s.tested src)
    | none => (body.filter (·.touchesMemory)).flatMap (s.assumed src)
  else []

/-- What the instructions of `rest` give as sources, each with the body from its place on. -/
def contributionsOf (body : List Instruction) : List Instruction → List Contribution
  | [] => []
  | src :: rest => s.contributionsFrom body src (src :: rest) ++ contributionsOf body rest

/-- What the pairs of the loop body give, in the order they are looked at. -/
def contributions : List Contribution :=
  s.contributionsOf (s.function.body s.loop) (s.function.body s.loop)

variable {s} {src dst : Instruction} {srcLoc dstLoc loc : MemoryLocation} {m m' : DependenceMap}
  {c : Contribution} {em : EstimateId} {k : CarriedKind}

/-- What the test of two loads or stores gives: if the answer carries kinds, those kinds on the
memory of either. -/
theorem mem_tested :
    c ∈ s.tested src dst ↔ ∃ srcLoc dstLoc dep kinds,
      (src.location? = some srcLoc ∧ dst.location? = some dstLoc)
        ∧ s.depends src.id dst.id s.loop = some dep
        ∧ dep.carried? s.loop.depth s.ignoreLoopIndependent = some kinds
        ∧ ∃ loc, (loc = srcLoc ∨ loc = dstLoc)
          ∧ c = ⟨loc, kinds, {.loadStore} ∪ s.headerMark src, dep.distance? s.loop.depth⟩ := by
  unfold tested
  constructor
  · intro h
    split at h
    next srcLoc dstLoc dep hsrc hdst hdep =>
      split at h
      next kinds hkinds =>
        obtain ⟨loc, hloc, rfl⟩ := List.mem_map.mp h
        exact ⟨srcLoc, dstLoc, dep, kinds, ⟨hsrc, hdst⟩, hdep, hkinds, loc, by simpa using hloc, rfl⟩
      next => cases h
    next => cases h
  · rintro ⟨srcLoc, dstLoc, dep, kinds, ⟨hsrc, hdst⟩, hdep, hkinds, loc, hloc, rfl⟩
    rw [hsrc, hdst, hdep]
    dsimp only
    rw [hkinds]
    exact List.mem_map_of_mem (by simpa using hloc)

/-- What is assumed of two instructions: all kinds on every operand of theirs that both
may touch. -/
theorem mem_assumed :
    c ∈ s.assumed src dst ↔ ∃ loc, (loc ∈ src.operands ∨ loc ∈ dst.operands)
      ∧ (s.modRef src loc ≠ .noModRef ∧ s.modRef dst loc ≠ .noModRef)
      ∧ c = ⟨loc, .univ, s.assumedMarks src dst, none⟩ := by
  have hoverlap (loc : MemoryLocation) : (!s.untouched src dst loc) = true ↔
      s.modRef src loc ≠ .noModRef ∧ s.modRef dst loc ≠ .noModRef := by
    simp [untouched, ModRef.isNoModRef]
  constructor
  · intro h
    obtain ⟨loc, hloc, rfl⟩ := List.mem_map.mp h
    obtain ⟨hoperand, huntouched⟩ := List.mem_filter.mp hloc
    exact ⟨loc, List.mem_append.mp hoperand, (hoverlap loc).mp huntouched, rfl⟩
  · rintro ⟨loc, hoperand, hmodRef, rfl⟩
    exact List.mem_map.mpr ⟨loc, List.mem_filter.mpr
      ⟨List.mem_append.mpr hoperand, (hoverlap loc).mpr hmodRef⟩, rfl⟩

/-- The test of two loads or stores enters what it gives. -/
theorem addTested_eq (hsrc : src.location? = some srcLoc) (hdst : dst.location? = some dstLoc) :
    s.addTested src dst srcLoc dstLoc m = (s.tested src dst).foldlM s.enter m := by
  unfold addTested tested
  rw [hsrc, hdst]
  cases s.depends src.id dst.id s.loop with
  | none => rfl
  | some dep =>
    dsimp only
    cases dep.carried? s.loop.depth s.ignoreLoopIndependent with
    | none => rfl
    | some kinds => rw [List.foldlM_map]; rfl

/-- Nothing is tested against an instruction without single location. -/
theorem tested_of_location?_eq_none (h : dst.location? = none) : s.tested src dst = [] := by
  unfold tested
  rw [h]
  cases src.location? <;> rfl

/-- An assumption enters what it gives. -/
theorem addAssumed_eq : s.addAssumed src dst m = (s.assumed src dst).foldlM s.enter m := by
  unfold addAssumed assumed
  rw [List.foldlM_map]
  rfl

/-- The walk from one source enters what the source gives. -/
theorem addFrom_eq (body : List Instruction) (src : Instruction) (later : List Instruction)
    (m : DependenceMap) :
    s.addFrom body src later m = (s.contributionsFrom body src later).foldlM s.enter m := by
  unfold addFrom contributionsFrom
  split
  · cases hsrc : src.location? with
    | none =>
      rw [foldlM_flatMap]
      exact foldlM_congr (fun _ _ _ => addAssumed_eq) m
    | some srcLoc =>
      rw [foldlM_flatMap]
      refine foldlM_congr (fun m dst _ => ?_) m
      cases hdst : dst.location? with
      | none =>
        -- Passed over here, such a pair is met when `dst` is the source.
        rw [tested_of_location?_eq_none hdst]
        rfl
      | some dstLoc => exact addTested_eq hsrc hdst
  · rfl

/-- The walk over the rest of the body enters what its instructions give as sources. -/
theorem addAll_eq (body rest : List Instruction) (m : DependenceMap) :
    s.addAll body rest m = (s.contributionsOf body rest).foldlM s.enter m := by
  induction rest generalizing m with
  | nil => rfl
  | cons src rest ih =>
    -- A failure at the first source ends both runs, so only the other case goes on.
    unfold addAll contributionsOf
    rw [List.foldlM_append, ← addFrom_eq]
    cases s.addFrom body src (src :: rest) m with
    | error e => rfl
    | ok m' => exact ih m'

/-- The collector enters all contributions, in the order they come up. -/
theorem collect_eq (s : DependenceSource) : s.collect = s.contributions.foldlM s.enter ∅ :=
  addAll_eq _ _ _

/-! ## Which pairs contribute -/

variable (s) in
/-- Both instructions stand in the body, and `dst` is `src` or comes after it. -/
def InOrder (src dst : Instruction) : Prop :=
  ∃ later, src :: later <:+ s.function.body s.loop ∧ dst ∈ src :: later

variable (s) in
/-- The contributions to the records of a loop: a load or store is tested against those from its
own place on, and an instruction without single location is paired with every memory instruction. -/
inductive Contributes : Contribution → Prop where
  | tested {src dst : Instruction} {c : Contribution} (order : s.InOrder src dst)
      (given : c ∈ s.tested src dst) : Contributes c
  | assumed {src dst : Instruction} {c : Contribution}
      (srcBody : src ∈ s.function.body s.loop) (dstBody : dst ∈ s.function.body s.loop)
      (srcMemory : src.touchesMemory = true) (dstMemory : dst.touchesMemory = true)
      (single : src.location? = none) (given : c ∈ s.assumed src dst) : Contributes c

/-- A contribution comes from one place in the walk, and the body from there on is what its source
was paired with. -/
theorem mem_contributionsOf {body rest : List Instruction} :
    c ∈ s.contributionsOf body rest ↔
      ∃ src later, src :: later <:+ rest ∧ c ∈ s.contributionsFrom body src (src :: later) := by
  induction rest with
  | nil =>
    refine ⟨fun h => absurd h List.not_mem_nil, ?_⟩
    rintro ⟨src, later, htail, -⟩
    cases List.suffix_nil.mp htail
  | cons first rest ih =>
    unfold contributionsOf
    rw [List.mem_append, ih]
    constructor
    · rintro (h | ⟨src, later, htail, h⟩)
      · exact ⟨first, rest, List.suffix_refl _, h⟩
      · exact ⟨src, later, htail.trans (List.suffix_cons first rest), h⟩
    · rintro ⟨src, later, htail, h⟩
      rcases List.suffix_cons_iff.mp htail with heq | htail
      · obtain ⟨rfl, rfl⟩ := List.cons.inj heq
        exact .inl h
      · exact .inr ⟨src, later, htail, h⟩

/-- An instruction with a single location is a load or store. -/
theorem touchesMemory_of_location? (h : src.location? = some loc) : src.touchesMemory = true := by
  unfold Instruction.location? at h
  unfold Instruction.touchesMemory
  split at h
  · rename_i hop
    rw [hop]
  · rename_i hop
    rw [hop]
  · cases h

/-- The source of a test that gives something has a single location. -/
theorem exists_location?_of_mem_tested (h : c ∈ s.tested src dst) :
    ∃ srcLoc, src.location? = some srcLoc := by
  obtain ⟨srcLoc, _, _, _, ⟨hsrc, -⟩, -⟩ := mem_tested.mp h
  exact ⟨srcLoc, hsrc⟩

/-- The list holds exactly the contributions of the pairs. -/
theorem mem_contributions : c ∈ s.contributions ↔ s.Contributes c := by
  unfold contributions
  rw [mem_contributionsOf]
  constructor
  · rintro ⟨src, later, htail, h⟩
    -- A source with a location is tested against what follows it, one without is assumed to meet
    -- everything.
    unfold contributionsFrom at h
    split at h
    next hmemory =>
      split at h
      next hloc =>
        obtain ⟨dst, hdst, h⟩ := List.mem_flatMap.mp h
        exact .tested ⟨later, htail, hdst⟩ h
      next hloc =>
        obtain ⟨dst, hdst, h⟩ := List.mem_flatMap.mp h
        obtain ⟨hdst, hdstMemory⟩ := List.mem_filter.mp hdst
        exact .assumed (htail.subset List.mem_cons_self) hdst hmemory hdstMemory hloc h
    next => exact absurd h List.not_mem_nil
  · rintro (⟨⟨later, htail, hdst⟩, h⟩ | ⟨hsrc, hdst, hmemory, hdstMemory, hloc, h⟩)
    · -- A load or store touches memory, so it is a source.
      obtain ⟨srcLoc, hloc⟩ := exists_location?_of_mem_tested h
      refine ⟨_, later, htail, ?_⟩
      unfold contributionsFrom
      rw [if_pos (touchesMemory_of_location? hloc), hloc]
      exact List.mem_flatMap.mpr ⟨_, hdst, h⟩
    · -- Its place in the body does not matter: it is paired with the whole body.
      obtain ⟨before, later, hbody⟩ := List.append_of_mem hsrc
      refine ⟨_, later, ⟨before, hbody.symm⟩, ?_⟩
      unfold contributionsFrom
      rw [if_pos hmemory, hloc]
      exact List.mem_flatMap.mpr ⟨_, List.mem_filter.mpr ⟨hdst, hdstMemory⟩, h⟩

/-! ## What is recorded -/

variable (s) in
/-- What `cs` says of the memory `em`. -/
def occurrencesAt (em : EstimateId) (cs : List Contribution) : List Occurrence :=
  (cs.filter fun c => s.tree.find? c.location = some em).map (·.occurrence)

/-- A contribution that is entered is added to the record of the memory that its location is in. -/
theorem eq_update_of_enter (h : s.enter m c = .ok m') :
    ∃ e, s.tree.find? c.location = some e ∧ m' = m.update e ∅ (·.add c.occurrence) := by
  unfold enter note at h
  split at h
  · cases h
  next e he =>
    cases h
    exact ⟨e, he, rfl⟩

/-- The record of a memory is made of what is said of that memory. -/
theorem get?_foldlM_enter (h : cs.foldlM s.enter ∅ = .ok m) (em : EstimateId) :
    m.get? em = DependenceRecord.ofOccurrences? (s.occurrencesAt em cs) := by
  have hnone : (∅ : DependenceMap).get? em
      = DependenceRecord.ofOccurrences? (s.occurrencesAt em []) := rfl
  refine foldlM_outcome
    (P := fun done m => m.get? em = DependenceRecord.ofOccurrences? (s.occurrencesAt em done))
    hnone (fun done c m m' hdone hc => ?_) h
  obtain ⟨e, he, rfl⟩ := eq_update_of_enter hc
  -- One more contribution adds an occurrence to the record of its own memory and passes the others
  -- by.
  unfold occurrencesAt at hdone ⊢
  rw [List.filter_append, List.map_append]
  by_cases hem : e = em
  · subst hem
    rw [OrderedMap.get?_update_self, hdone, List.filter_cons_of_pos (by simpa using he)]
    exact (DependenceRecord.ofOccurrences?_append _ _).symm
  · rw [OrderedMap.get?_update_of_ne _ _ _ (Ne.symm hem), hdone,
      List.filter_cons_of_neg (by simpa [he] using hem)]
    exact congrArg _ (List.append_nil _).symm

/-- The location of a contribution that was entered is in a memory. -/
theorem find?_of_foldlM_enter {cs : List Contribution} (h : cs.foldlM s.enter m = .ok m')
    (hc : c ∈ cs) : ∃ e, s.tree.find? c.location = some e := by
  obtain ⟨before, after, rfl⟩ := List.append_of_mem hc
  rw [List.foldlM_append] at h
  obtain ⟨m₁, -, h⟩ := bind_eq_ok h
  rw [List.foldlM_cons] at h
  obtain ⟨m₂, hc, -⟩ := bind_eq_ok h
  obtain ⟨e, he, -⟩ := eq_update_of_enter hc
  exact ⟨e, he⟩

/-- So every contribution to collected dependences is about a memory. -/
theorem find?_of_contributes (h : s.collect = .ok m) (hc : s.Contributes c) :
    ∃ e, s.tree.find? c.location = some e := by
  rw [collect_eq] at h
  exact find?_of_foldlM_enter h (mem_contributions.mpr hc)

/-- A kind is recorded on a memory exactly if it is contributed there. -/
theorem records_collect (h : s.collect = .ok m) :
    m.Records em k ↔
      ∃ c, s.Contributes c ∧ s.tree.find? c.location = some em ∧ c.kinds.has k = true := by
  rw [collect_eq] at h
  unfold DependenceMap.Records
  rw [get?_foldlM_enter h]
  refine DependenceRecord.exists_ofOccurrences?_and_mem_kinds.trans ?_
  simp [occurrencesAt, mem_contributions, Contribution.occurrence, FlagSet.mem_def, and_assoc]

/-- An answer that is asked for contributes its kinds on both locations. -/
theorem contributes_of_inOrder {dep : Dependence} {kinds : CarriedKinds} (order : s.InOrder src dst)
    (hsrc : src.location? = some srcLoc) (hdst : dst.location? = some dstLoc)
    (hdep : s.depends src.id dst.id s.loop = some dep)
    (hkinds : dep.carried? s.loop.depth s.ignoreLoopIndependent = some kinds)
    (hloc : loc ∈ [srcLoc, dstLoc]) :
    ∃ c, s.Contributes c ∧ c.location = loc ∧ c.kinds = kinds := by
  refine ⟨⟨loc, kinds, {.loadStore} ∪ s.headerMark src, dep.distance? s.loop.depth⟩,
    .tested order (mem_tested.mpr ?_), rfl, rfl⟩
  exact ⟨srcLoc, dstLoc, dep, kinds, ⟨hsrc, hdst⟩, hdep, hkinds, loc, by simpa using hloc, rfl⟩

/-- An answer is recorded for two loads or stores, and says something about the loop. The kinds it
carries are recorded on the memory of both exactly if the answer is asked for, the instructions
standing in its order, or if contributions of other pairs happen to cover all of it. -/
theorem carried_recorded_iff {dep : Dependence} {kinds : CarriedKinds}
    (hdepends : s.depends = s.function.depends) (h : s.collect = .ok m)
    (hsrc : src.location? = some srcLoc) (hdst : dst.location? = some dstLoc)
    (hdep : s.function.dependences.get? (src.id, dst.id) = some dep)
    (hkinds : dep.carried? s.loop.depth s.ignoreLoopIndependent = some kinds) :
    (∀ loc ∈ [srcLoc, dstLoc], ∃ em, s.tree.find? loc = some em ∧
        ∀ k ∈ kinds, m.Records em k) ↔
      s.InOrder src dst ∨
        ∀ loc ∈ [srcLoc, dstLoc], ∃ em, s.tree.find? loc = some em ∧
          ∀ k ∈ kinds, ∃ c, s.Contributes c ∧ s.tree.find? c.location = some em
            ∧ c.kinds.has k = true := by
  -- What is recorded is what the pairs contribute, so only the order has to be looked at.
  simp only [records_collect h]
  constructor
  · exact .inr
  · rintro (order | hother)
    · intro loc hloc
      have hasked : s.depends src.id dst.id s.loop = some dep := by
        rw [hdepends]
        exact hdep
      obtain ⟨c, hc, rfl, rfl⟩ := contributes_of_inOrder order hsrc hdst hasked hkinds hloc
      obtain ⟨em, hem⟩ := find?_of_contributes h hc
      exact ⟨em, hem, fun k hk => ⟨c, hc, hem, hk⟩⟩
    · exact hother

end DependenceSource

/-! A loop that reads four bytes and then writes them. -/

/-- The four bytes. -/
def bytes : MemoryLocation := ⟨⟨0⟩, some 4⟩

/-- The read of the four bytes. -/
def readBytes : Instruction := ⟨⟨0⟩, ⟨2⟩, .load bytes⟩

/-- The write, behind the read in the body. -/
def writeBytes : Instruction := ⟨⟨1⟩, ⟨2⟩, .store bytes none⟩

/-- The loop with the answers recorded for it. -/
def readWriteSource (dependences : OrderedMap (InstId × InstId) Dependence) : DependenceSource where
  function := { name := "update", instructions := #[readBytes, writeBytes], dependences }
  tree := .ofAdditions [.node AliasTree.top .estimate, .estimate ⟨1⟩ [⟨0⟩] (some 4) 0 none]
  loop := twoBlocks
  depends := fun src dst _ => dependences.get? (src, dst)
  modRef := fun _ _ => .modRef
  ignoreLoopIndependent := true

/-- Each iteration overwrites what it read: found by asking for the load and then the store. -/
def overwrites : OrderedMap (InstId × InstId) Dependence :=
  OrderedMap.empty.insert (readBytes.id, writeBytes.id) ⟨.anti, [.lt], []⟩

/-- Each iteration reads what the one before it wrote, recorded for the store and then the load. -/
def readsBack : OrderedMap (InstId × InstId) Dependence :=
  OrderedMap.empty.insert (writeBytes.id, readBytes.id) ⟨.flow, [.lt], []⟩

/-- The dependence from the read to the write behind it is asked for and recorded. -/
theorem carried_recorded_iff_overwrites :
    ∃ m, (readWriteSource overwrites).collect = .ok m
      ∧ overwrites.get? (readBytes.id, writeBytes.id) = some ⟨.anti, [.lt], []⟩
      ∧ (⟨.anti, [.lt], []⟩ : Dependence).carried? twoBlocks.depth true = some {.anti}
      ∧ ((∀ loc ∈ [bytes, bytes], ∃ em, (readWriteSource overwrites).tree.find? loc = some em ∧
          ∀ k ∈ ({.anti} : CarriedKinds), m.Records em k) ↔
        (readWriteSource overwrites).InOrder readBytes writeBytes ∨
          ∀ loc ∈ [bytes, bytes], ∃ em, (readWriteSource overwrites).tree.find? loc = some em ∧
            ∀ k ∈ ({.anti} : CarriedKinds), ∃ c, (readWriteSource overwrites).Contributes c
              ∧ (readWriteSource overwrites).tree.find? c.location = some em
              ∧ c.kinds.has k = true) := by
  obtain ⟨m, hm⟩ := exists_of_isOk (x := (readWriteSource overwrites).collect) (by decide +kernel)
  have hdep : overwrites.get? (readBytes.id, writeBytes.id) = some ⟨.anti, [.lt], []⟩ := by decide
  have hkinds : (⟨.anti, [.lt], []⟩ : Dependence).carried? twoBlocks.depth true = some {.anti} := by
    decide
  have hread : readBytes.location? = some bytes := rfl
  have hwrite : writeBytes.location? = some bytes := rfl
  exact ⟨m, hm, hdep, hkinds,
    DependenceSource.carried_recorded_iff rfl hm hread hwrite hdep hkinds⟩

/-- Recorded from the store back to the load, the dependence is not collected. -/
theorem carried_unrecorded_readsBack :
    ∃ m em, (readWriteSource readsBack).collect = .ok m
      ∧ (readWriteSource readsBack).depends = (readWriteSource readsBack).function.depends
      ∧ (readWriteSource readsBack).function.body twoBlocks = [readBytes, writeBytes]
      ∧ readsBack.get? (writeBytes.id, readBytes.id) = some ⟨.flow, [.lt], []⟩
      ∧ (⟨.flow, [.lt], []⟩ : Dependence).carried? twoBlocks.depth true = some {.flow}
      ∧ writeBytes.location? = some bytes ∧ readBytes.location? = some bytes
      ∧ (readWriteSource readsBack).tree.find? bytes = some em ∧ ¬ m.Records em .flow := by
  refine ⟨∅, ⟨0⟩, rfl, rfl, rfl, by decide, by decide, rfl, rfl, by decide +kernel, ?_⟩
  rintro ⟨r, hr, -⟩
  cases hr

end Privatization
