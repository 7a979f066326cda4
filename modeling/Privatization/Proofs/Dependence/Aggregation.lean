import Privatization.Proofs.Dependence.Contributions

/-!
# What a collection records

The pairs of the loop body that concern a memory are named by `Contributed`, with what each of them
contributes. The record of the memory is what these occurrences come to, kind by kind, and there is
none where nothing contributes (`collect_accounts`). The order in which the pairs are looked at does
not matter, since a tested pair never marks its distance as unknown by itself
(`Contributed.distance_eq_none`).
-/

namespace Privatization

/-- The record of a kind is what the occurrences in `seen` come to. Their marks add up, one without
distance leaves no distance, and otherwise every distance is kept. -/
structure KindRecord.Sums (r : KindRecord) (seen : Occurrence → Prop) : Prop where
  marks : ∀ mark, mark ∈ r.marks ↔
    (∃ o, seen o ∧ mark ∈ o.marks) ∨ mark = .unknownDistance ∧ ∃ o, seen o ∧ o.distance = none
  unknown : (∃ o, seen o ∧ o.distance = none) → r.Unknown ∧ r.distances = ∅
  known : (∀ o, seen o → o.distance ≠ none) → ∀ d, d ∈ r.distances ↔ ∃ o, seen o ∧ o.distance = some d

/-- Where no occurrence with a distance is flagged, their order does not matter. -/
theorem KindRecord.sums_foldl_add {os : List Occurrence} {seen : Occurrence → Prop}
    (hseen : ∀ o, o ∈ os ↔ seen o) (hflagged : ∀ o, seen o → o.flagged = true → o.distance = none) :
    (os.foldl add ∅).Sums seen := by
  obtain rfl : (· ∈ os) = seen := funext fun o => propext (hseen o)
  refine ⟨fun mark => ?_, fun hnone => ?_, fun hknown d => ?_⟩
  · exact mem_marks_foldl_add.trans (or_iff_right (FlagSet.not_mem_empty mark))
  · exact ⟨mem_marks_foldl_add.mpr (.inr (.inr ⟨rfl, hnone⟩)), distances_foldl_add_of_none hnone⟩
  · have hall : os.takeWhile (!·.flagged) = os := by
      refine List.takeWhile_eq_self_iff.mpr fun o ho => ?_
      rw [Bool.not_eq_true', Bool.eq_false_iff]
      exact fun h => hknown o ho (hflagged o ho h)
    rw [mem_distances_foldl_add hknown, hall]
    exact (or_iff_right (SortedSet.not_mem_empty d)).trans (and_iff_right (FlagSet.not_mem_empty _))

namespace DependenceSource

variable {s : DependenceSource} {src dst : Instruction} {m : DependenceMap} {o : Occurrence}
  {em : EstimateId}

/-! ## Contributions to one memory -/

variable (s) in
/-- What the pairs of the loop body contribute to the record of `em`. A load or store is tested
against itself and those behind it, and an instruction without single location is paired with every
instruction that touches memory. -/
inductive Contributed (em : EstimateId) : Occurrence → Prop where
  | tested {i j : Nat} {src dst : Instruction} {srcLoc dstLoc : MemoryLocation} {dep : Dependence}
      {kinds : CarriedKinds}
      (source : (s.function.body s.loop)[i]? = some src)
      (destination : (s.function.body s.loop)[j]? = some dst) (order : i ≤ j)
      (single : src.location? = some srcLoc ∧ dst.location? = some dstLoc)
      (answer : s.depends src.id dst.id s.loop = some dep)
      (carried : dep.carried? s.loop.depth s.ignoreLoopIndependent = some kinds)
      (memory : s.tree.find? srcLoc = some em ∨ s.tree.find? dstLoc = some em) :
      Contributed em ⟨kinds, {.loadStore} ∪ s.headerMark src, dep.distance? s.loop.depth⟩
  | assumed {src dst : Instruction} {loc : MemoryLocation}
      (source : src ∈ s.function.body s.loop) (destination : dst ∈ s.function.body s.loop)
      (touching : src.touchesMemory = true ∧ dst.touchesMemory = true)
      (unpinned : src.location? = none) (operand : loc ∈ src.operands ∨ loc ∈ dst.operands)
      (overlap : s.modRef src loc ≠ .noModRef ∧ s.modRef dst loc ≠ .noModRef)
      (memory : s.tree.find? loc = some em) :
      Contributed em ⟨.univ,
        (if src.isCall || dst.isCall then {.call} else {.unknown}) ∪ {.may, .unknownDistance}
          ∪ s.headerMark src, none⟩

theorem inOrder_iff :
    s.InOrder src dst ↔ ∃ i j : Nat, (s.function.body s.loop)[i]? = some src
      ∧ (s.function.body s.loop)[j]? = some dst ∧ i ≤ j := by
  constructor
  · rintro ⟨later, ⟨before, hbody⟩, hdst⟩
    obtain ⟨n, hn⟩ := List.mem_iff_getElem?.mp hdst
    refine ⟨before.length, before.length + n, ?_, ?_, Nat.le_add_right _ n⟩
    · rw [← hbody, List.getElem?_append_right (Nat.le_refl _), Nat.sub_self]
      rfl
    · rw [← hbody, List.getElem?_append_right (Nat.le_add_right _ n), Nat.add_sub_cancel_left]
      exact hn
  · rintro ⟨i, j, hi, hj, hle⟩
    obtain ⟨hlt, hsrc⟩ := List.getElem?_eq_some_iff.mp hi
    have hdrop := List.drop_eq_getElem_cons hlt
    rw [hsrc] at hdrop
    refine ⟨(s.function.body s.loop).drop (i + 1), hdrop ▸ List.drop_suffix i _, ?_⟩
    rw [← hdrop]
    refine List.mem_iff_getElem?.mpr ⟨j - i, ?_⟩
    rw [List.getElem?_drop, Nat.add_sub_cancel' hle]
    exact hj

/-- The occurrences at a memory are the contributions to the locations it stands for. -/
theorem contributed_iff :
    s.Contributed em o ↔
      ∃ c, s.Contributes c ∧ s.tree.find? c.location = some em ∧ c.occurrence = o := by
  constructor
  · rintro (⟨hsrc, hdst, hle, hsingle, hdep, hkinds, hmemory⟩
      | ⟨hsrc, hdst, hmemory, hnone, hoperand, hoverlap, hem⟩)
    · have order : s.InOrder _ _ := inOrder_iff.mpr ⟨_, _, hsrc, hdst, hle⟩
      -- hem | A tested pair counts for the memory of either operand.
      rcases hmemory with hem | hem
      · exact ⟨_, .tested order (mem_tested.mpr ⟨_, _, _, _, hsingle, hdep, hkinds, _, .inl rfl, rfl⟩),
          hem, rfl⟩
      · exact ⟨_, .tested order (mem_tested.mpr ⟨_, _, _, _, hsingle, hdep, hkinds, _, .inr rfl, rfl⟩),
          hem, rfl⟩
    · exact ⟨_, .assumed hsrc hdst hmemory.1 hmemory.2 hnone
        (mem_assumed.mpr ⟨_, hoperand, hoverlap, rfl⟩), hem, rfl⟩
  · rintro ⟨c, hc, hem, rfl⟩
    cases hc with
    | tested order given =>
      obtain ⟨i, j, hsrc, hdst, hle⟩ := inOrder_iff.mp order
      obtain ⟨srcLoc, dstLoc, dep, kinds, hsingle, hdep, hkinds, loc, hloc, rfl⟩ := mem_tested.mp given
      refine .tested hsrc hdst hle hsingle hdep hkinds ?_
      rcases hloc with rfl | rfl
      · exact .inl hem
      · exact .inr hem
    | assumed hsrc hdst hsrcMemory hdstMemory hnone given =>
      obtain ⟨loc, hoperand, hoverlap, rfl⟩ := mem_assumed.mp given
      exact .assumed hsrc hdst ⟨hsrcMemory, hdstMemory⟩ hnone hoperand hoverlap hem

/-- What a test contributes is not flagged. -/
theorem flagged_tested {kinds : CarriedKinds} {distance : Option Distance} :
    (⟨kinds, {.loadStore} ∪ s.headerMark src, distance⟩ : Occurrence).flagged = false := by
  show ({.loadStore} ∪ s.headerMark src : DependenceMarks).has .unknownDistance = false
  unfold headerMark
  split <;> decide

/-- The distance is marked as unknown only where there is none. -/
theorem Contributed.distance_eq_none (h : s.Contributed em o) (hflagged : o.flagged = true) :
    o.distance = none := by
  cases h with
  | tested => exact absurd hflagged (Bool.eq_false_iff.mp flagged_tested)
  | assumed => rfl

/-! ## The record of a memory -/

/-- The occurrences that the walk enters at a memory are its contributions. -/
theorem mem_occurrencesAt_contributions :
    o ∈ s.occurrencesAt em s.contributions ↔ s.Contributed em o := by
  rw [contributed_iff]
  simp [occurrencesAt, mem_contributions, and_assoc]

/-- A collected record is made of the contributions to its memory, in the order of the walk. -/
theorem get?_collect (h : s.collect = .ok m) (em : EstimateId) :
    ∃ os, m.get? em = DependenceRecord.ofOccurrences? os ∧ ∀ o, o ∈ os ↔ s.Contributed em o := by
  rw [collect_eq] at h
  exact ⟨_, get?_foldlM_enter h em, fun o => mem_occurrencesAt_contributions⟩

/-- There is a record where something contributes. -/
theorem exists_record_iff (h : s.collect = .ok m) :
    (∃ r, m.get? em = some r) ↔ ∃ o, s.Contributed em o := by
  obtain ⟨os, hrecord, hmem⟩ := get?_collect h em
  simp only [hrecord, DependenceRecord.exists_ofOccurrences?_eq_some, hmem]

/-- A record holds the kinds that are contributed. -/
theorem mem_kinds_iff (h : s.collect = .ok m) {r : DependenceRecord} (hr : m.get? em = some r)
    (k : CarriedKind) : k ∈ r.kinds ↔ ∃ o, s.Contributed em o ∧ k ∈ o.kinds := by
  obtain ⟨os, hrecord, hmem⟩ := get?_collect h em
  obtain rfl := DependenceRecord.eq_of_ofOccurrences? (hrecord.symm.trans hr)
  simp only [DependenceRecord.mem_kinds_foldl_add, hmem]
  exact or_iff_right (FlagSet.not_mem_empty k)

/-- Its details are what the contributions of each kind come to. -/
theorem details_sums (h : s.collect = .ok m) {r : DependenceRecord} (hr : m.get? em = some r)
    (k : CarriedKind) : (r.details k).Sums fun o => s.Contributed em o ∧ k ∈ o.kinds := by
  obtain ⟨os, hrecord, hmem⟩ := get?_collect h em
  obtain rfl := DependenceRecord.eq_of_ofOccurrences? (hrecord.symm.trans hr)
  rw [DependenceRecord.details_foldl_add, DependenceRecord.details_empty]
  refine KindRecord.sums_foldl_add (fun o => ?_) fun o ho => ho.1.distance_eq_none
  simp [hmem]

variable (s) in
/-- The map has a record of `em` exactly if something contributes to it, with the kinds that are
contributed, and for each kind with what the contributions of that kind come to. -/
structure Accounts (m : DependenceMap) (em : EstimateId) : Prop where
  present : (∃ r, m.get? em = some r) ↔ ∃ o, s.Contributed em o
  kinds : ∀ r, m.get? em = some r → ∀ k, k ∈ r.kinds ↔ ∃ o, s.Contributed em o ∧ k ∈ o.kinds
  details : ∀ r, m.get? em = some r → ∀ k,
    (r.details k).Sums fun o => s.Contributed em o ∧ k ∈ o.kinds

/-- A collection records on every memory what its pairs contribute there, and nothing else. -/
theorem collect_accounts (h : s.collect = .ok m) (em : EstimateId) : s.Accounts m em where
  present := exists_record_iff h
  kinds _ hr := mem_kinds_iff h hr
  details _ hr := details_sums h hr

end DependenceSource

/-! A loop that overwrites four bytes it has read, one iteration later, and then calls a function
with them. -/

/-- A call that is passed the four bytes. -/
def passBytes : Instruction := ⟨⟨2⟩, ⟨2⟩, .call "log" true [bytes]⟩

/-- The loop with the answer for the read and the write behind it. -/
def readWritePassSource : DependenceSource :=
  let dependences := OrderedMap.empty.insert (readBytes.id, writeBytes.id)
    (⟨.anti, [.lt], [some (.constant 1)]⟩ : Dependence)
  { readWriteSource dependences with
    function := { name := "update", instructions := #[readBytes, writeBytes, passBytes], dependences } }

/-- The distance that the test found is lost to what is assumed of the call. -/
theorem collect_accounts_readWritePass :
    ∃ m, readWritePassSource.collect = .ok m
      ∧ m.get? ⟨0⟩ = some
        { kinds := .univ
          flow := ⟨{.may, .call, .unknownDistance}, ∅⟩
          anti := ⟨{.loadStore, .may, .call, .unknownDistance}, ∅⟩
          output := ⟨{.may, .call, .unknownDistance}, ∅⟩ }
      ∧ ∀ em, readWritePassSource.Accounts m em := by
  obtain ⟨m, hm⟩ := exists_of_isOk (x := readWritePassSource.collect) (by decide +kernel)
  have hrecord : (readWritePassSource.collect.toOption.bind (·.get? ⟨0⟩)) = some
      { kinds := .univ
        flow := ⟨{.may, .call, .unknownDistance}, ∅⟩
        anti := ⟨{.loadStore, .may, .call, .unknownDistance}, ∅⟩
        output := ⟨{.may, .call, .unknownDistance}, ∅⟩ } := by decide +kernel
  rw [hm] at hrecord
  exact ⟨m, hm, hrecord, DependenceSource.collect_accounts hm⟩

end Privatization
