import Privatization.Proofs.Facts.Contents
import Privatization.Proofs.Memory.Answers

/-!
# What must reach may reach

A `reach` statement gives the definitions that reach a data-flow node as two lists. The set for the
second list takes in the first one as well, so what must reach the node may reach it
(`setReach_reaches`). No other statement touches these facts, so this holds of every node of every
function that is read (`reachNested_of_load`).
-/

namespace Privatization

namespace LocationSet

/-- Whatever one set contains or overlaps, the other contains or overlaps too. -/
structure Within (s t : LocationSet) : Prop where
  contains : ∀ loc, s.contains loc = true → t.contains loc = true
  overlaps : ∀ loc, s.overlaps loc = true → t.overlaps loc = true

/-- A set lies within every set that takes in its locations. -/
theorem within_insertAll (s t : LocationSet) : s.Within (t.insertAll s.locations) where
  contains loc h := by
    rw [contains_insertAll, Bool.or_eq_true]
    exact .inr h
  overlaps loc h := by
    rw [overlaps_insertAll, Bool.or_eq_true]
    exact .inr h

end LocationSet

/-- Whatever must reach a data-flow node may reach it. -/
def Function.ReachNested (f : Function) : Prop :=
  ∀ node defs, f.reach.get? node = some defs → defs.must.Within defs.may

namespace Facts

variable {b b' : Draft} {s : Statement}

/-! ## One statement -/

/-- The statement gives the definitions that reach one data-flow node and changes nothing else. What
it lists under `must` both must and may reach the node. -/
def Draft.Reaches (b : Draft) (s : Statement) (b' : Draft) : Prop :=
  ∃ node must may defs, b.locations s "must" = .ok must ∧ b.locations s "may" = .ok may
    ∧ b' = { b with function := { b.function with reach := b.function.reach.insert node defs } }
    ∧ defs.must.Answers must ∧ defs.may.Answers (may ++ must) ∧ defs.must.Within defs.may

/-- The statement leaves the definitions that reach data-flow nodes as they are. -/
def Draft.KeepsReach (b b' : Draft) : Prop := b'.function.reach = b.function.reach

/-- A `reach` statement sets what reaches its node, the one list within the other. -/
theorem setReach_reaches (s : Statement) : Ensures (b.Reaches s) (b.setReach s) :=
  (setReach_sets s).mono fun _ ⟨_, must, may, hmust, hmay, h⟩ =>
    ⟨_, must, may, _, hmust, hmay, h, LocationSet.answers_ofList must,
      LocationSet.answers_insertAll_locations may must, LocationSet.within_insertAll ..⟩

/-- A declaration leaves what reaches nodes. -/
theorem Draft.Declaration.keepsReach {sort : Declared} (h : b.Declaration s sort b') :
    b.KeepsReach b' := by
  obtain ⟨name, -, h⟩ := h
  cases h <;> rfl

/-- An instruction of unknown effect leaves the reach statements as they are. -/
theorem addUnknown_keepsReach (s : Statement) : Ensures b.KeepsReach (b.addUnknown s) := by
  refine .bind fun label _ => .bind fun inst _ => .bind fun name _ => .bind fun node _ => ?_
  exact .bind fun t _ => .ok rfl

/-- The facts of a loop leave the reach statements as they are. -/
theorem addAccess_keepsReach (s : Statement) : Ensures b.KeepsReach (b.addAccess s) := by
  refine .bind fun name _ => .bind fun loop _ => .bind fun explicit _ => .bind fun uses _ => ?_
  refine .bind fun defs _ => .bind fun mayDefs _ => .bind fun unknowns _ => ?_
  exact .bind fun addresses _ => .ok rfl

/-- A statement with the keyword is read as such a statement. -/
theorem reaches_of_step (hs : s.keyword = "reach") (h : b.step s = .ok b') : b.Reaches s b' := by
  unfold Draft.step at h
  rw [hs] at h
  exact setReach_reaches s b' h

/-- All others leave what reaches nodes. -/
theorem step_keepsReach (hs : s.keyword ≠ "reach") : Ensures b.KeepsReach (b.step s) := by
  unfold Draft.step
  split
  · exact (addValue_adds s).mono fun _ h => h.keepsReach
  · exact (addInst_adds s).mono fun _ h => h.keepsReach
  · exact (addAlias_adds s).mono fun _ h => h.keepsReach
  · exact (addEstimate_adds s).mono fun _ h => h.keepsReach
  · exact addUnknown_keepsReach s
  · exact (addLoop_adds s).mono fun _ h => h.keepsReach
  · exact addAccess_keepsReach s
  · exact (addLive_sets s).mono fun _ ⟨_, h⟩ => h ▸ rfl
  next h => exact absurd h hs
  · exact (setDependence_sets s).mono fun _ ⟨_, h⟩ => h ▸ rfl
  · exact (setModRef_sets s).mono fun _ ⟨_, h⟩ => h ▸ rfl
  · exact .error

/-! ## A whole list -/

/-- One statement keeps what must reach a node within what may. -/
theorem reachNested_step (hb : b.function.ReachNested) (h : b.step s = .ok b') :
    b'.function.ReachNested := by
  by_cases hs : s.keyword = "reach"
  · obtain ⟨node, must, may, defs, -, -, rfl, -, -, hwithin⟩ := reaches_of_step hs h
    intro node' defs' hget
    by_cases hnode : node' = node
    · subst hnode
      rw [OrderedMap.get?_insert_self] at hget
      exact Option.some.inj hget ▸ hwithin
    · rw [OrderedMap.get?_insert_of_ne _ _ hnode] at hget
      exact hb node' defs' hget
  · intro node defs hget
    rw [step_keepsReach hs b' h] at hget
    exact hb node defs hget

/-- In every function that is read, what must reach also may reach. -/
theorem reachNested_of_load {ss : List Statement} {fs : List Function} (h : load ss = .ok fs) :
    ∀ f ∈ fs, f.ReachNested := by
  intro f hf
  obtain ⟨x, -, hx⟩ := exists_section_of_function h hf
  obtain ⟨name, -, hx⟩ := bind_eq_ok hx
  obtain ⟨b, hb, hx⟩ := bind_eq_ok hx
  cases hx
  have hnew : (Draft.new name).function.ReachNested := fun _ _ hget => nomatch hget
  exact foldlM_invariant (P := (Draft.function · |>.ReachNested)) hnew
    (fun s b b' hb hs => reachNested_step hb (mapError_eq_ok hs)) hb

/-- A set of locations answers for everything inserted into it, in whatever order that was done. A
`reach` statement that is accepted sets what must and what may reach a node, the one within the
other, and so it is for every node of a function that is read. -/
theorem locationSets_answer :
    (∀ inserted, (LocationSet.ofList inserted).Answers inserted)
    ∧ (∀ inserted others, (∀ loc, loc ∈ others ↔ loc ∈ inserted) →
      (LocationSet.ofList others).Same (LocationSet.ofList inserted))
    ∧ (∀ b s b', s.keyword = "reach" → Draft.step b s = .ok b' → b.Reaches s b')
    ∧ ∀ ss fs, load ss = .ok fs → ∀ f ∈ fs, f.ReachNested :=
  ⟨LocationSet.answers_ofList, fun _ _ => LocationSet.same_of_mem_iff,
    fun _ _ _ => reaches_of_step, fun _ _ => reachNested_of_load⟩

/-- A list in which definitions of the given sizes at one value reach a data-flow node. -/
def reachedBy (must may : List (Option Nat)) : List Statement := [
  ⟨"function", 1, [.name "f"], []⟩,
  ⟨"value", 2, [.name "p", .name "argument"], []⟩,
  ⟨"reach", 3, [.number 0],
    [("must", .list (must.map (.location "p"))), ("may", .list (may.map (.location "p")))]⟩]

/-- What must reach the node here is larger than all that is listed under `may`. -/
theorem locationSets_answer_reachedBy : ∃ fs, load (reachedBy [some 8] [some 4, some 0]) = .ok fs
    ∧ ∃ f ∈ fs, ∃ defs, f.reach.get? ⟨0⟩ = some defs
      ∧ defs.must.contains ⟨⟨0⟩, some 8⟩ = true ∧ defs.may.contains ⟨⟨0⟩, some 8⟩ = true := by
  have hread : (load (reachedBy [some 8] [some 4, some 0])).toOption.any (fun fs => fs.any fun f =>
      (f.reach.get? ⟨0⟩).any (·.must.contains ⟨⟨0⟩, some 8⟩)) = true := by decide +kernel
  cases hload : load (reachedBy [some 8] [some 4, some 0]) with
  | error e =>
    rw [hload] at hread
    cases hread
  | ok fs =>
    rw [hload] at hread
    obtain ⟨f, hf, hfound⟩ := List.any_eq_true.mp hread
    rw [Option.any_eq_true] at hfound
    obtain ⟨defs, hdefs, hmust⟩ := hfound
    have hnested := locationSets_answer.2.2.2 _ fs hload f hf
    exact ⟨fs, rfl, f, hf, defs, hdefs, hmust, (hnested ⟨0⟩ defs hdefs).contains _ hmust⟩

end Facts

end Privatization
