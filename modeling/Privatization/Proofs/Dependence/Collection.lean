import Privatization.Classification.Dependences

/-!
# More answers, more records

Two collections over the same body, one of which gets every answer the other gets and possibly more.
Step by step, the memory with a record in the one keeps having a record in the other
(`collect_mono`): a tested pair contributes the same locations or none, and pairs that are not
tested contribute to both.
-/

namespace Privatization

/-- Every answer of the first oracle is given by the second, which may answer more pairs. -/
def DependenceOracle.Extends (second first : DependenceOracle) : Prop :=
  ∀ src dst loop dep, first src dst loop = some dep → second src dst loop = some dep

/-- Two runs over one list keep what every pair of steps keeps. -/
theorem foldlM_simulation {α β ε : Type} {f g : β → α → Except ε β} {R : β → β → Prop}
    {as : List α}
    (hstep : ∀ b c a b' c', a ∈ as → R b c → f b a = .ok b' → g c a = .ok c' → R b' c')
    {b c b' c' : β} (h : R b c) (hf : as.foldlM f b = .ok b') (hg : as.foldlM g c = .ok c') :
    R b' c' := by
  induction as generalizing b c with
  | nil =>
    cases hf
    cases hg
    exact h
  | cons a as ih =>
    rw [List.foldlM_cons] at hf hg
    cases hfa : f b a with
    | error e =>
      rw [hfa] at hf
      cases hf
    | ok b₁ =>
      cases hga : g c a with
      | error e =>
        rw [hga] at hg
        cases hg
      | ok c₁ =>
        rw [hfa] at hf
        rw [hga] at hg
        exact ih (fun b c x b' c' hx => hstep b c x b' c' (List.mem_cons_of_mem a hx))
          (hstep b c a b₁ c₁ List.mem_cons_self h hfa hga) hf hg

namespace DependenceSource

variable {s : DependenceSource} {first second : DependenceOracle} {m₁ m₂ m₁' m₂' : DependenceMap}

/-- Memory with a record in the first map has one in the second. -/
def Within (m₁ m₂ : DependenceMap) : Prop := ∀ em ∈ m₁.keys, em ∈ m₂.keys

/-- A dependence can be noted where its location has an estimate memory, which then has a record. -/
theorem note_eq_ok {kinds : CarriedKinds} {marks : DependenceMarks} {distance : Option Distance}
    {m m' : DependenceMap} {loc : MemoryLocation} (h : s.note kinds marks distance m loc = .ok m') :
    ∃ em, s.tree.find? loc = some em ∧ ∀ e, e ∈ m'.keys ↔ e = em ∨ e ∈ m.keys := by
  unfold note at h
  split at h
  · cases h
  next em hem =>
    cases h
    exact ⟨em, hem, fun e => OrderedMap.mem_keys_insert⟩

/-- Notes on the same locations keep the first map within the second. -/
theorem foldlM_note_mono {kinds : CarriedKinds} {marks : DependenceMarks}
    {distance : Option Distance} {locs : List MemoryLocation} (h : Within m₁ m₂)
    (h₁ : locs.foldlM (s.note kinds marks distance) m₁ = .ok m₁')
    (h₂ : locs.foldlM (s.note kinds marks distance) m₂ = .ok m₂') : Within m₁' m₂' := by
  refine foldlM_simulation (fun b c loc b' c' _ hbc hb hc => ?_) h h₁ h₂
  obtain ⟨em, hem, hkeys⟩ := note_eq_ok hb
  obtain ⟨em', hem', hkeys'⟩ := note_eq_ok hc
  obtain rfl : em = em' := Option.some.inj (hem.symm.trans hem')
  intro e he
  rw [hkeys']
  exact ((hkeys e).mp he).imp_right (hbc e)

/-- Notes only add records. -/
theorem foldlM_note_grows {kinds : CarriedKinds} {marks : DependenceMarks}
    {distance : Option Distance} {locs : List MemoryLocation}
    (h : locs.foldlM (s.note kinds marks distance) m₂ = .ok m₂') : Within m₂ m₂' := by
  -- The run is compared with one that does nothing.
  have hidle : locs.foldlM (fun m _ => .ok m) m₂ = (.ok m₂ : Except ClassifyError _) := by
    clear h
    induction locs with
    | nil => rfl
    | cons loc locs ih => exact ih
  refine foldlM_simulation (fun b c loc b' c' _ hbc hb hc => ?_) (fun _ h => h) hidle h
  obtain ⟨em, -, hkeys⟩ := note_eq_ok hc
  cases hb
  exact fun e he => (hkeys e).mpr (.inr (hbc e he))

theorem addTested_of_some {src dst : Instruction} {srcLoc dstLoc : MemoryLocation}
    {dep : Dependence} (h : s.depends src.id dst.id s.loop = some dep) :
    s.addTested src dst srcLoc dstLoc m₁ =
      match dep.carried? s.loop.depth s.ignoreLoopIndependent with
      | none => .ok m₁
      | some kinds => [srcLoc, dstLoc].foldlM
          (s.note kinds ({.loadStore} ∪ s.headerMark src) (dep.distance? s.loop.depth)) m₁ := by
  unfold addTested
  generalize s.depends src.id dst.id s.loop = answer at h
  subst h
  rfl

/-- A tested pair has a record with the second map wherever it has one with the first. -/
theorem addTested_mono (hmore : second.Extends first) {src dst : Instruction}
    {srcLoc dstLoc : MemoryLocation} (h : Within m₁ m₂)
    (h₁ : { s with depends := first }.addTested src dst srcLoc dstLoc m₁ = .ok m₁')
    (h₂ : { s with depends := second }.addTested src dst srcLoc dstLoc m₂ = .ok m₂') :
    Within m₁' m₂' := by
  -- What the second run adds comes on top of what it had.
  have hgrows : Within m₂ m₂' := by
    unfold addTested at h₂
    split at h₂
    · cases h₂
      exact fun _ h => h
    · split at h₂
      · cases h₂
        exact fun _ h => h
      · exact foldlM_note_grows h₂
  cases hdep : first src.id dst.id s.loop with
  | none =>
    unfold addTested at h₁
    rw [show ({ s with depends := first } : DependenceSource).depends src.id dst.id s.loop = none
      from hdep] at h₁
    cases h₁
    exact fun e he => hgrows e (h e he)
  | some dep =>
    rw [addTested_of_some (s := { s with depends := first }) hdep] at h₁
    rw [addTested_of_some (s := { s with depends := second }) (hmore _ _ _ dep hdep)] at h₂
    split at h₁
    next hkinds =>
      cases h₁
      exact fun e he => hgrows e (h e he)
    next kinds hkinds =>
      rw [show dep.carried? _ _ = some kinds from hkinds] at h₂
      exact foldlM_note_mono (s := s) h h₁ h₂

/-- Likewise for all pairs of one source. -/
theorem addFrom_mono (hmore : second.Extends first) {body later : List Instruction}
    {src : Instruction} (h : Within m₁ m₂)
    (h₁ : { s with depends := first }.addFrom body src later m₁ = .ok m₁')
    (h₂ : { s with depends := second }.addFrom body src later m₂ = .ok m₂') : Within m₁' m₂' := by
  unfold addFrom at h₁ h₂
  split at h₁
  next htouches =>
    rw [if_pos htouches] at h₂
    cases hloc : src.location? with
    | some srcLoc =>
      rw [hloc] at h₁ h₂
      refine foldlM_simulation (fun b c dst b' c' _ hbc hb hc => ?_) h h₁ h₂
      cases hdst : dst.location? with
      | some dstLoc =>
        simp only [hdst] at hb hc
        exact addTested_mono hmore hbc hb hc
      | none =>
        simp only [hdst] at hb hc
        cases hb
        cases hc
        exact hbc
    | none =>
      rw [hloc] at h₁ h₂
      -- Pairs with `src` are not tested.
      refine foldlM_simulation (fun b c dst b' c' _ hbc hb hc => ?_) h h₁ h₂
      exact foldlM_note_mono (s := s) hbc hb hc
  next htouches =>
    rw [if_neg htouches] at h₂
    cases h₁
    cases h₂
    exact h

/-- Likewise for all sources, by induction on the body. -/
theorem addAll_mono (hmore : second.Extends first) {body rest : List Instruction}
    (h : Within m₁ m₂) (h₁ : { s with depends := first }.addAll body rest m₁ = .ok m₁')
    (h₂ : { s with depends := second }.addAll body rest m₂ = .ok m₂') : Within m₁' m₂' := by
  induction rest generalizing m₁ m₂ with
  | nil =>
    cases h₁
    cases h₂
    exact h
  | cons src rest ih =>
    unfold addAll at h₁ h₂
    split at h₁
    next n₁ hn₁ =>
      split at h₂
      next n₂ hn₂ => exact ih (addFrom_mono hmore h hn₁ hn₂) h₁ h₂
      · cases h₂
    · cases h₁

/-- With more answers, memory that had a record has one. -/
theorem collect_mono (hmore : second.Extends first)
    (h₁ : { s with depends := first }.collect = .ok m₁)
    (h₂ : { s with depends := second }.collect = .ok m₂) : Within m₁ m₂ :=
  addAll_mono hmore (fun _ h => h) h₁ h₂

end DependenceSource

end Privatization
