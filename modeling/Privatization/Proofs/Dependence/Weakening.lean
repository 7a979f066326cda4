import Privatization.Proofs.Dependence.Aggregation

/-!
# Answers that say less

A direction is read as the orders of two iterations it admits, and one that admits more says less.
Where every answer of one oracle is at most weakened by another, the memory with a record keeps one,
and its kinds are kept but for one exception (`kinds_kept_of_weakened`). Of two iterations that are
known to differ, neither is known to come first, and the roles of the pair are swapped as if the
source were the later one. So a pair that was known to run forward, and is now only known to be in
different iterations, contributes the opposite kind (`Direction.Weakens.cases`).
-/

namespace Privatization

namespace Direction

variable {d d' : Direction}

/-- Whether the source iteration may compare to the destination iteration as `o`. -/
def admits (d : Direction) (o : Ordering) : Bool :=
  match d with
  | .lt => o.isLT
  | .eq => o.isEq
  | .le => o.isLE
  | .gt => o.isGT
  | .ne => o.isNe
  | .ge => o.isGE
  | .all => true

/-- Every order of the iterations that `d` admits is admitted by `d'`. -/
def Weakens (d d' : Direction) : Prop := ∀ o, d.admits o = true → d'.admits o = true

/-- The directions that say no more than `d`. -/
def weaker : Direction → List Direction
  | .lt => [.lt, .le, .ne, .all]
  | .eq => [.eq, .le, .ge, .all]
  | .gt => [.gt, .ge, .ne, .all]
  | .le => [.le, .all]
  | .ne => [.ne, .all]
  | .ge => [.ge, .all]
  | .all => [.all]

/-- The list of weaker directions is complete. -/
theorem weakens_iff : d.Weakens d' ↔ d' ∈ d.weaker := by
  constructor
  · intro h
    have hlt := h .lt
    have heq := h .eq
    have hgt := h .gt
    cases d <;> cases d' <;> simp_all [admits, weaker]
  · intro h o
    revert h
    cases d <;> cases d' <;> cases o <;> decide

/-- A direction between iterations that may differ keeps its sense, says nothing any more, or
changes from forward to merely different. -/
theorem Weakens.cases (h : d.Weakens d') (hd : d ≠ .eq) :
    d' = .all ∨ d = .lt ∧ d' = .ne
      ∨ d ≠ .all ∧ d' ≠ .all ∧ d' ≠ .eq ∧ d'.isForward = d.isForward := by
  rw [weakens_iff] at h
  cases d <;> cases d' <;> simp_all [weaker, isForward]

end Direction

/-- The kind of a dependence when the roles of its sides are swapped. -/
def CarriedKind.opposite : CarriedKind → CarriedKind
  | .flow => .anti
  | .anti => .flow
  | .output => .output

namespace Direction

variable {d d' : Direction} {k k' : CarriedKind}

/-- The kinds carried between iterations by a flow or anti dependence `k` in program order. -/
def across (d : Direction) (k : CarriedKind) : CarriedKinds :=
  if d = .all then {.flow, .anti} else if d.isForward then {k} else {k.opposite}

/-- A flow or anti dependence carries no output dependence, whatever its direction. -/
theorem ne_output_of_mem_across (hk : k ≠ .output) (h : k' ∈ d.across k) : k' ≠ .output := by
  rintro rfl
  revert h
  unfold across
  cases k with
  | output => exact absurd rfl hk
  | flow | anti =>
    split
    · decide
    · split <;> decide

/-- Without direction all other kinds are carried. -/
theorem mem_across_all (hk : k' ≠ .output) : k' ∈ all.across k := by
  unfold across
  rw [if_pos rfl]
  revert hk
  cases k' <;> decide

/-- Some kind is always carried. -/
theorem exists_mem_across : ∃ k', k' ∈ d.across k := by
  unfold across
  split
  · exact ⟨.flow, by decide⟩
  · split
    · exact ⟨k, FlagSet.mem_singleton.mpr rfl⟩
    · exact ⟨k.opposite, FlagSet.mem_singleton.mpr rfl⟩

/-- A weaker direction carries the kinds that were carried, or the opposite of a forward one. -/
theorem Weakens.across (h : d.Weakens d') (hd : d ≠ .eq) (hk : k ≠ .output) :
    ∀ k' ∈ d.across k, k' ∈ d'.across k
      ∨ k'.opposite ∈ d'.across k ∧ k' ≠ .output ∧ d = .lt ∧ d' = .ne := by
  intro k' hk'
  have hne := ne_output_of_mem_across hk hk'
  rcases h.cases hd with rfl | ⟨rfl, rfl⟩ | ⟨hall, hall', -, hforward⟩
  · exact .inl (mem_across_all hne)
  · obtain rfl : k' = k := FlagSet.mem_singleton.mp hk'
    exact .inr ⟨FlagSet.mem_singleton.mpr rfl, hne, rfl, rfl⟩
  · unfold Direction.across at hk' ⊢
    rw [if_neg hall] at hk'
    rw [if_neg hall', hforward]
    exact .inl hk'

end Direction

/-- The test sees the same dependence, and says no more about its direction at `level`. -/
structure Dependence.Weakened (level : Nat) (dep dep' : Dependence) : Prop where
  kind : dep'.kind = dep.kind
  direction : (dep.direction level).Weakens (dep'.direction level)

namespace Dependence

variable {dep dep' : Dependence} {level : Nat} {kinds : CarriedKinds}

/-- A dependence within one iteration is left out. -/
theorem carried?_of_eq (h : dep.direction level = .eq) : dep.carried? level true = none := by
  unfold Dependence.carried?
  rw [h]
  rfl

/-- Any other one carries what its kind and direction say. -/
theorem carried?_of_ne_eq (h : dep.direction level ≠ .eq) :
    dep.carried? level true = match dep.kind with
      | .input => none
      | .output => some {.output}
      | .flow => some ((dep.direction level).across .flow)
      | .anti => some ((dep.direction level).across .anti) := by
  unfold Dependence.carried? Direction.across
  dsimp only
  rw [beq_eq_false_iff_ne.mpr h, Bool.and_false, if_neg Bool.false_ne_true]
  cases dep.kind with
  | input | output => rfl
  | flow | anti =>
    dsimp only
    split
    · rfl
    · split <;> rfl

/-- What a weaker answer carries, when dependences within an iteration are left out. -/
theorem Weakened.carried? (h : dep.Weakened level dep')
    (hkinds : dep.carried? level true = some kinds) :
    ∃ kinds', dep'.carried? level true = some kinds' ∧ ∀ k ∈ kinds, k ∈ kinds'
      ∨ k.opposite ∈ kinds' ∧ k ≠ .output
        ∧ dep.direction level = .lt ∧ dep'.direction level = .ne := by
  have hne : dep.direction level ≠ .eq := fun heq => by
    rw [carried?_of_eq heq] at hkinds
    cases hkinds
  -- Only a direction `eq` is not carried, and weakening does not lead there.
  have hne' : dep'.direction level ≠ .eq := by
    rcases h.direction.cases hne with hall | ⟨-, hne'⟩ | ⟨-, -, heq', -⟩
    · rw [hall]
      decide
    · rw [hne']
      decide
    · exact heq'
  rw [carried?_of_ne_eq hne] at hkinds
  rw [carried?_of_ne_eq hne', h.kind]
  cases hkind : dep.kind with
  | input =>
    rw [hkind] at hkinds
    cases hkinds
  | output =>
    rw [hkind] at hkinds
    exact ⟨kinds, hkinds, fun k hk => .inl hk⟩
  | flow | anti =>
    rw [hkind] at hkinds
    obtain rfl := Option.some.inj hkinds
    exact ⟨_, rfl, h.direction.across hne (by decide)⟩

/-- What is carried is never empty. -/
theorem exists_mem_of_carried? (h : dep.carried? level true = some kinds) : ∃ k, k ∈ kinds := by
  have hne : dep.direction level ≠ .eq := fun heq => by
    rw [carried?_of_eq heq] at h
    cases h
  rw [carried?_of_ne_eq hne] at h
  split at h
  · cases h
  all_goals obtain rfl := Option.some.inj h
  · exact ⟨.output, FlagSet.mem_singleton.mpr rfl⟩
  · exact Direction.exists_mem_across
  · exact Direction.exists_mem_across

end Dependence

/-- Every answer of the first oracle is given by the second with a direction that says no more. -/
def DependenceOracle.Weakens (second first : DependenceOracle) (loop : Loop) : Prop :=
  ∀ src dst dep, first src dst loop = some dep →
    ∃ dep', second src dst loop = some dep' ∧ dep.Weakened loop.depth dep'

namespace DependenceSource

variable {s : DependenceSource} {first second : DependenceOracle} {m₁ m₂ : DependenceMap}
  {src dst : Instruction} {dep : Dependence} {o : Occurrence} {em : EstimateId} {k : CarriedKind}

variable (s) in
/-- The test of `src` and `dst` answers `dep`, which carries `k` to the memory `em`. -/
structure TestedInto (em : EstimateId) (k : CarriedKind) (src dst : Instruction) (dep : Dependence) :
    Prop where
  order : s.InOrder src dst
  memory : ∃ srcLoc dstLoc, (src.location? = some srcLoc ∧ dst.location? = some dstLoc)
    ∧ (s.tree.find? srcLoc = some em ∨ s.tree.find? dstLoc = some em)
  answer : s.depends src.id dst.id s.loop = some dep
  carried : ∃ kinds, dep.carried? s.loop.depth s.ignoreLoopIndependent = some kinds ∧ k ∈ kinds

/-- A test that carries a kind to a memory contributes it there. -/
theorem TestedInto.contributed (h : s.TestedInto em k src dst dep) :
    ∃ o, s.Contributed em o ∧ k ∈ o.kinds := by
  obtain ⟨order, ⟨srcLoc, dstLoc, hsingle, hmemory⟩, answer, ⟨kinds, hkinds, hk⟩⟩ := h
  obtain ⟨i, j, hi, hj, hle⟩ := inOrder_iff.mp order
  exact ⟨_, .tested hi hj hle hsingle answer hkinds hmemory, hk⟩

/-- What is contributed comes from a test, or would be contributed whatever the tests say. -/
theorem Contributed.tested_or_assumed (h : s.Contributed em o) (hk : k ∈ o.kinds) :
    (∃ src dst dep, s.TestedInto em k src dst dep)
      ∨ ∀ depends, { s with depends }.Contributed em o := by
  cases h with
  | tested hsrc hdst hle hsingle answer carried hmemory =>
    exact .inl ⟨_, _, _, inOrder_iff.mpr ⟨_, _, hsrc, hdst, hle⟩, ⟨_, _, hsingle, hmemory⟩, answer,
      _, carried, hk⟩
  | assumed hsrc hdst htouching hnone hoperand hoverlap hmemory =>
    exact .inr fun _ => .assumed hsrc hdst htouching hnone hoperand hoverlap hmemory

/-- No contribution is empty. -/
theorem Contributed.exists_kind (hignore : s.ignoreLoopIndependent = true)
    (h : s.Contributed em o) : ∃ k, k ∈ o.kinds := by
  cases h with
  | tested hsrc hdst hle hsingle answer carried hmemory =>
    rw [hignore] at carried
    exact Dependence.exists_mem_of_carried? carried
  | assumed => exact ⟨.output, FlagSet.has_univ _⟩

/-- The weaker answer carries the same kind, or else the pair was known to run forward, and now is
only known to be in different iterations. -/
theorem TestedInto.weakened (hignore : s.ignoreLoopIndependent = true)
    (hweak : second.Weakens first s.loop)
    (h : { s with depends := first }.TestedInto em k src dst dep) :
    ∃ dep', second src.id dst.id s.loop = some dep'
      ∧ ({ s with depends := second }.TestedInto em k src dst dep'
        ∨ { s with depends := second }.TestedInto em k.opposite src dst dep' ∧ k ≠ .output
          ∧ dep.direction s.loop.depth = .lt ∧ dep'.direction s.loop.depth = .ne) := by
  obtain ⟨order, memory, answer, ⟨kinds, hkinds, hk⟩⟩ := h
  obtain ⟨dep', hdep', hweakened⟩ := hweak _ _ dep answer
  obtain ⟨kinds', hkinds', hkept⟩ := hweakened.carried? (hignore ▸ hkinds)
  rw [← hignore] at hkinds'
  refine ⟨dep', hdep', ?_⟩
  rcases hkept k hk with hk' | ⟨hk', hblurred⟩
  · exact .inl ⟨order, memory, hdep', kinds', hkinds', hk'⟩
  · exact .inr ⟨⟨order, memory, hdep', kinds', hkinds', hk'⟩, hblurred⟩

/-- The memory of every record keeps one when the answers say less about the direction of the
dependences, and the record keeps its kinds. The one exception is a flow or anti dependence that was
tested to run forward wherever it was found, and is only said to be in different iterations now: the
opposite kind is recorded for it. -/
theorem kinds_kept_of_weakened (hignore : s.ignoreLoopIndependent = true)
    (hweak : second.Weakens first s.loop)
    (h₁ : { s with depends := first }.collect = .ok m₁)
    (h₂ : { s with depends := second }.collect = .ok m₂) {r₁ : DependenceRecord}
    (hr₁ : m₁.get? em = some r₁) :
    ∃ r₂, m₂.get? em = some r₂ ∧ ∀ k ∈ r₁.kinds, k ∈ r₂.kinds
      ∨ k.opposite ∈ r₂.kinds ∧ k ≠ .output
        ∧ ∀ src dst dep, { s with depends := first }.TestedInto em k src dst dep →
          dep.direction s.loop.depth = .lt ∧ ∃ dep', second src.id dst.id s.loop = some dep'
            ∧ dep'.direction s.loop.depth = .ne := by
  -- One kind at a time: it is contributed again, or its opposite is.
  have hkept (o : Occurrence) (k : CarriedKind) (ho : { s with depends := first }.Contributed em o)
      (hk : k ∈ o.kinds) : (∃ o', { s with depends := second }.Contributed em o' ∧ k ∈ o'.kinds)
        ∨ (∃ o', { s with depends := second }.Contributed em o' ∧ k.opposite ∈ o'.kinds)
          ∧ k ≠ .output := by
    rcases ho.tested_or_assumed hk with ⟨src, dst, dep, htested⟩ | hassumed
    · obtain ⟨dep', -, hsame | ⟨hopposite, hne, -⟩⟩ := htested.weakened hignore hweak
      · exact .inl hsame.contributed
      · exact .inr ⟨hopposite.contributed, hne⟩
    · exact .inl ⟨o, hassumed second, hk⟩
  obtain ⟨r₂, hr₂⟩ : ∃ r₂, m₂.get? em = some r₂ := by
    obtain ⟨o, ho⟩ := (exists_record_iff h₁).mp ⟨r₁, hr₁⟩
    obtain ⟨k, hk⟩ := Contributed.exists_kind (s := { s with depends := first }) hignore ho
    rcases hkept o k ho hk with ⟨o', ho', -⟩ | ⟨⟨o', ho', -⟩, -⟩
    · exact (exists_record_iff h₂).mpr ⟨o', ho'⟩
    · exact (exists_record_iff h₂).mpr ⟨o', ho'⟩
  refine ⟨r₂, hr₂, fun k hk => ?_⟩
  rw [mem_kinds_iff h₂ hr₂, mem_kinds_iff h₂ hr₂]
  obtain ⟨o, ho, hko⟩ := (mem_kinds_iff h₁ hr₁ k).mp hk
  refine (Classical.em _).imp id fun hlost => ?_
  obtain ⟨hopposite, hne⟩ := (hkept o k ho hko).resolve_left hlost
  refine ⟨hopposite, hne, fun src dst dep htested => ?_⟩
  obtain ⟨dep', hdep', hsame | ⟨-, -, hlt, hne'⟩⟩ := htested.weakened hignore hweak
  · exact absurd hsame.contributed hlost
  · exact ⟨hlt, dep', hdep', hne'⟩

end DependenceSource

/-! The loop that overwrites what it has read, and the same with the order of the two iterations
left open. -/

/-- The answer with the order left open. -/
def overwritesElsewhere : OrderedMap (InstId × InstId) Dependence :=
  OrderedMap.empty.insert (readBytes.id, writeBytes.id) ⟨.anti, [.ne], []⟩

/-- A record that was computed, out of the run that collected it. -/
theorem exists_record_of_kinds {s : DependenceSource} (em : EstimateId) (kinds : CarriedKinds)
    (h : (s.collect.toOption.bind (·.get? em)).map (·.kinds) = some kinds) :
    ∃ m r, s.collect = .ok m ∧ m.get? em = some r ∧ r.kinds = kinds := by
  cases hm : s.collect with
  | error e =>
    rw [hm] at h
    cases h
  | ok m =>
    rw [hm] at h
    obtain ⟨r, hr, hkinds⟩ := Option.map_eq_some_iff.mp h
    exact ⟨m, r, rfl, hr, hkinds⟩

/-- It says less than the other answer, which was the only one. -/
theorem overwritesElsewhere_weakens :
    (readWriteSource overwritesElsewhere).depends.Weakens (readWriteSource overwrites).depends
      twoBlocks := by
  intro src dst dep hdep
  by_cases hkey : (src, dst) = (readBytes.id, writeBytes.id)
  · have hsecond : overwritesElsewhere.get? (src, dst) = some ⟨.anti, [.ne], []⟩ := by
      rw [hkey]
      decide
    have hfirst : overwrites.get? (src, dst) = some ⟨.anti, [.lt], []⟩ := by
      rw [hkey]
      decide
    obtain rfl := Option.some.inj (hfirst.symm.trans hdep)
    refine ⟨_, hsecond, rfl, fun o => ?_⟩
    cases o <;> decide
  · have hnone : overwrites.get? (src, dst) = none := OrderedMap.get?_insert_of_ne _ _ hkey
    cases hnone.symm.trans hdep

/-- The dependence is recorded as the opposite kind, since the order of its iterations is open. -/
theorem kinds_kept_of_weakened_overwrites :
    ∃ m₁ m₂ r₁, (readWriteSource overwrites).collect = .ok m₁
      ∧ { readWriteSource overwrites with
          depends := (readWriteSource overwritesElsewhere).depends }.collect = .ok m₂
      ∧ m₁.get? ⟨0⟩ = some r₁ ∧ .anti ∈ r₁.kinds
      ∧ ∃ r₂, m₂.get? ⟨0⟩ = some r₂ ∧ ∀ k ∈ r₁.kinds, k ∈ r₂.kinds
        ∨ k.opposite ∈ r₂.kinds ∧ k ≠ .output
          ∧ ∀ src dst dep, (readWriteSource overwrites).TestedInto ⟨0⟩ k src dst dep →
            dep.direction twoBlocks.depth = .lt
              ∧ ∃ dep', (readWriteSource overwritesElsewhere).depends src.id dst.id twoBlocks = some dep'
                ∧ dep'.direction twoBlocks.depth = .ne := by
  obtain ⟨m₁, r₁, h₁, hr₁, hkinds⟩ := exists_record_of_kinds (s := readWriteSource overwrites)
    ⟨0⟩ {.anti} (by decide +kernel)
  obtain ⟨m₂, h₂⟩ := exists_of_isOk (x := { readWriteSource overwrites with
    depends := (readWriteSource overwritesElsewhere).depends }.collect) (by decide +kernel)
  refine ⟨m₁, m₂, r₁, h₁, h₂, hr₁, hkinds ▸ by decide, ?_⟩
  exact DependenceSource.kinds_kept_of_weakened (s := readWriteSource overwrites) rfl
    overwritesElsewhere_weakens h₁ h₂ hr₁

/-- The tables differ in a direction that was weakened, and the anti dependence is gone. -/
theorem kind_lost_overwritesElsewhere :
    ∃ m₁ m₂ r₁ r₂, (readWriteSource overwrites).collect = .ok m₁
      ∧ (readWriteSource overwritesElsewhere).collect = .ok m₂
      ∧ overwrites.toList = [((readBytes.id, writeBytes.id), ⟨.anti, [.lt], []⟩)]
      ∧ overwritesElsewhere.toList = [((readBytes.id, writeBytes.id), ⟨.anti, [.ne], []⟩)]
      ∧ Direction.lt.Weakens .ne
      ∧ m₁.get? ⟨0⟩ = some r₁ ∧ m₂.get? ⟨0⟩ = some r₂
      ∧ .anti ∈ r₁.kinds ∧ .anti ∉ r₂.kinds := by
  obtain ⟨m₁, r₁, h₁, hr₁, hkinds₁⟩ := exists_record_of_kinds (s := readWriteSource overwrites)
    ⟨0⟩ {.anti} (by decide +kernel)
  obtain ⟨m₂, r₂, h₂, hr₂, hkinds₂⟩ := exists_record_of_kinds
    (s := readWriteSource overwritesElsewhere) ⟨0⟩ {.flow} (by decide +kernel)
  refine ⟨m₁, m₂, r₁, r₂, h₁, h₂, rfl, rfl, fun o => ?_, hr₁, hr₂, ?_, ?_⟩
  · cases o <;> decide
  · rw [hkinds₁]
    decide
  · rw [hkinds₂]
    decide

end Privatization
