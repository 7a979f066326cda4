import Privatization.Proofs.Classification.EveryLoop
import Privatization.Proofs.Facts.InRange
import Privatization.Proofs.Guarded.Access
import Privatization.Proofs.Guarded.Propagation

/-!
# Guarded classification

The classification of a loop on an arena, and the descent into a nest of loops, which may go as deep
as there are loops. For a function whose facts hold only numbers that are in range it gives what
`classify` gives (`classify_eq`), and what the results name is in range again (`Reported`).
-/

namespace Privatization.Guarded

section Loops

variable (settings : Settings) (f : Function)

/-- The loops directly inside a loop. -/
def loopChildren (id : LoopId) : Guarded (List LoopId) := do
  let _ ← region f id
  return f.loops.children id

variable (t : AliasTree)

def classifyLoop (id : LoopId) : Guarded LoopResult := do
  let s ← report (Scope.ofLoop f t (← region f id))
  let dependences ← collect (s.dependenceSource settings f.depends f.modRef)
  let a ← resolvePasses s { dependences }
  let (a, traits) ← propagate s a ∅
  let traits ← forceCovered s.tree a traits
  return { traits, statistics := if settings.collectStatistics then a.statistics else {} }

/-- Classifies a loop, then the loops inside it, and goes at most `depth` loops deep. -/
def classifyNest : Nat → FunctionResult → LoopId → Guarded FunctionResult
  | 0, _, _ => throw .endless
  | depth + 1, r, id => do
    let result ← classifyLoop settings f t id
    (← loopChildren f id).foldlM (classifyNest depth) (r.record id result)

end Loops

def classify (settings : Settings) (f : Function) : Guarded FunctionResult :=
  match f.aliasTree with
  | none => return {}
  | some t => f.loops.topLevel.foldlM (classifyNest settings f t f.loops.size) {}

/-- The numbers in the results for a function are in range. -/
def Reported (f : Function) (t : AliasTree) (r : FunctionResult) : Prop :=
  ∀ p ∈ r.loops.toList, p.1.index < f.loops.size ∧ TraitsKnown f t p.2.traits

variable {settings : Settings} {f : Function} {t : AliasTree} {s : Scope} {id : LoopId}

/-! ## One loop -/

/-- A loop whose number is in range is found. -/
theorem region_eq (h : id.index < f.loops.size) :
    ∃ loop, f.loops.get? id = some loop ∧ region f id = .ok loop :=
  exists_found h

/-- The facts of a loop are facts of its function. -/
theorem inRange_scope (k : f.InRange) (ht : f.aliasTree = some t) {loop : Loop}
    (hs : Scope.ofLoop f t loop = .ok s) : InRange s := by
  obtain ⟨rfl, rfl, -, hdefUse, -⟩ := Scope.ofLoop_eq_ok hs
  obtain ⟨hexplicit, hunknowns⟩ := k.summaries _ (OrderedMap.mem_toList_iff.mpr hdefUse)
  exact ⟨k.tree _ ht, k.fronts _ ht, hexplicit, hunknowns⟩

/-- What comes after the passes mirrors what the engine makes of the ledger. -/
theorem finish_mirrors (w : s.tree.WellFormed) {a : Arena} {l : Ledger} (h : Behind s a l)
    (settings : Settings) :
    Mirrors (fun r r' => r = r' ∧ TraitsKnown s.function s.tree r.traits)
      (do
        let (a, traits) ← propagate s a ∅
        let traits ← forceCovered s.tree a traits
        return { traits, statistics := if settings.collectStatistics then a.statistics else {} })
      (.ok (s.finish l settings)) := by
  obtain ⟨x, b⟩ := h
  have hnone : TraitsKnown s.function s.tree ∅ := List.forall_mem_nil _
  refine (propagate_mirrors w b hnone).next ?_
  rintro ⟨a, m⟩ ⟨b, hm, hknown⟩
  unfold Scope.finish
  dsimp only
  generalize s.propagate l ∅ = q at b hm
  obtain ⟨l, m'⟩ := q
  obtain rfl : m = m' := hm
  refine (forceCovered_mirrors b hknown).next ?_
  rintro _ ⟨rfl, hknown⟩
  rw [b.statistics_eq]
  exact .ok ⟨rfl, hknown⟩

/-- Classifying a loop mirrors the engine, and the results have their numbers in range. -/
theorem classifyLoop_mirrors (k : f.InRange) (ht : f.aliasTree = some t)
    (settings : Settings) {loop : Loop} (hloop : f.loops.get? id = some loop) :
    Mirrors (fun r r' => r = r' ∧ TraitsKnown f t r.traits) (classifyLoop settings f t id)
      (Privatization.classifyLoop settings f t loop f.depends f.modRef) := by
  rw [classifyLoop, region, hloop, found_some, ok_bind, Privatization.classifyLoop]
  cases hs : Scope.ofLoop f t loop with
  | error e => exact .error e
  | ok s =>
    have r := inRange_scope k ht hs
    obtain ⟨rfl, rfl, -⟩ := Scope.ofLoop_eq_ok hs
    refine (collect_mirrors k.tree rfl).bind ?_
    rintro d _ ⟨rfl, hknown⟩
    refine (resolvePasses_mirrors r ⟨_, .start hknown⟩).bind fun a l h => ?_
    exact finish_mirrors r.wellFormed h settings

/-! ## All loops -/

/-- Both runs have the same results, whose numbers are in range. -/
def SameReport (f : Function) (t : AliasTree) (r r' : FunctionResult) : Prop :=
  r = r' ∧ Reported f t r

/-- A descent from a loop passes loops of larger and larger numbers, so it is as deep as there are
numbers left. -/
theorem classifyNest_mirrors (k : f.InRange) (ht : f.aliasTree = some t) {depth : Nat}
    (hid : id.index < f.loops.size) (hdepth : f.loops.size ≤ id.index + depth)
    {r r' : FunctionResult} (h : SameReport f t r r') :
    Mirrors (SameReport f t) (classifyNest settings f t depth r id)
      (Privatization.classifyNest settings f t f.depends f.modRef r' id) := by
  -- Loops inside a loop have larger numbers, so each level uses up one of the numbers left.
  induction depth generalizing id r r' with
  | zero => exact absurd hid (by omega)
  | succ depth ih =>
    obtain ⟨rfl, hreported⟩ := h
    obtain ⟨loop, hloop, hregion⟩ := region_eq hid
    rw [classifyNest_of_get? hloop, classifyNest, visitLoop, hloop]
    have hvisit := classifyLoop_mirrors k ht settings hloop
    dsimp only
    generalize classifyLoop settings f t id = x,
      Privatization.classifyLoop settings f t loop _ _ = y at hvisit
    cases hvisit with
    | error e => exact .error e
    | @ok result result' h =>
      obtain ⟨rfl, hknown⟩ := h
      show Mirrors _ (loopChildren f id >>= _) (List.foldlM _ _ _)
      rw [loopChildren, hregion, ok_bind]
      refine Mirrors.foldlM (fun c hc r r' h => ?_) ⟨rfl, ?_⟩
      · obtain ⟨hlt, hsize⟩ := LoopNest.lt_of_mem_children hc
        exact ih hsize (by omega) h
      · intro p hp
        rcases OrderedMap.mem_toList_insert hp with rfl | hp
        · exact ⟨hid, hknown⟩
        · exact hreported p hp

theorem mem_topLevel_lt (h : id ∈ f.loops.topLevel) : id.index < f.loops.size := by
  obtain ⟨i, hi, rfl⟩ := List.mem_map.mp h
  exact (f.loops.forest.mem_roots.mp hi).1

/-- A guarded classification gives what the engine gives, in numbers that are in range. -/
theorem classify_mirrors (k : f.InRange) (settings : Settings) :
    Mirrors (fun r r' => r = r' ∧ ∀ t, f.aliasTree = some t → Reported f t r)
      (classify settings f) (Privatization.classify settings f) := by
  unfold classify Privatization.classify classifyWith
  cases ht : f.aliasTree with
  | none => exact .ok ⟨rfl, fun _ h => nomatch h⟩
  | some t =>
    have hstart : SameReport f t {} {} := ⟨rfl, List.forall_mem_nil _⟩
    refine Mirrors.mono (R := SameReport f t) ?_ fun r r' h => ⟨h.1, fun _ ht' => ?_⟩
    · refine Mirrors.foldlM (fun id hid r r' h => ?_) hstart
      exact classifyNest_mirrors k ht (mem_topLevel_lt hid) (Nat.le_add_left ..) h
    · cases ht'
      exact h.2

end Privatization.Guarded
