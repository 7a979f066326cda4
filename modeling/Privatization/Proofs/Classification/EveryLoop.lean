import Privatization.Proofs.Collection.Folds
import Privatization.Proofs.Forest.Nests
import Privatization.Proofs.Propagation.ClosedForm
import Privatization.Proofs.Trait.Counting

/-!
# Every loop of a function

The loops of a function are classified by a descent from the outermost loops into the loops inside
them, which adds each result to a map. The order of a nest is computed by another walk, with a stack
(`LoopNest.preOrder`). The descent does the loops one by one in that order (`classifyWith_eq`), so
it reports what each of them gives alone, or the error of the first that fails
(`classifyWith_outcome`).
-/

namespace Privatization

/-! ## The descent -/

section Descent

variable {settings : Settings} {f : Function} {t : AliasTree} {depends : DependenceOracle}
  {modRef : ModRefOracle} {r : FunctionResult} {id : LoopId} {loop : Loop}

/-- Classifies one loop and adds its result. -/
def visitLoop (settings : Settings) (f : Function) (t : AliasTree) (depends : DependenceOracle)
    (modRef : ModRefOracle) (r : FunctionResult) (id : LoopId) :
    Except ClassifyError FunctionResult :=
  match f.loops.get? id with
  | none => .ok r
  | some loop => (classifyLoop settings f t loop depends modRef).map (r.record id)

/-- A descent classifies the loop it comes to and then goes through the loops inside, one after the
other. -/
theorem classifyNest_of_get? (h : f.loops.get? id = some loop) :
    classifyNest settings f t depends modRef r id
      = visitLoop settings f t depends modRef r id >>= fun r =>
        (f.loops.children id).foldlM (classifyNest settings f t depends modRef) r := by
  have hattach (r : FunctionResult) : (f.loops.children id).attach.foldlM
      (fun r c => classifyNest settings f t depends modRef r c.1) r
        = (f.loops.children id).foldlM (classifyNest settings f t depends modRef) r := by
    rw [List.foldlM_subtype fun _ _ _ => rfl, List.unattach_attach]
  rw [classifyNest, visitLoop, h]
  dsimp only
  cases classifyLoop settings f t loop depends modRef with
  | error e => rfl
  | ok result => exact hattach _

/-- A descent does what lies below a loop in the order of the nest. -/
theorem classifyNest_eq {i : Nat} (hi : i < f.loops.forest.size) (r : FunctionResult) :
    classifyNest settings f t depends modRef r ⟨i⟩
      = (f.loops.forest.preOrder i).foldlM
        (fun r i => visitLoop settings f t depends modRef r ⟨i⟩) r := by
  induction i using f.loops.forest.children_induction generalizing r with
  | step i ih =>
    have hsome : (f.loops.get? ⟨i⟩).isSome = true := LoopNest.get?_isSome.mpr hi
    obtain ⟨loop, hloop⟩ := Option.isSome_iff_exists.mp hsome
    rw [classifyNest_of_get? hloop, Forest.preOrder_eq, List.foldlM_cons]
    refine bind_congr fun r => ?_
    unfold LoopNest.children
    rw [List.foldlM_map, foldlM_flatMap]
    refine foldlM_congr (fun r c hc => ?_) r
    exact ih c hc (f.loops.forest.mem_children.mp hc).1 r

/-- All loops are classified one by one in the order of the nest. -/
theorem classifyWith_eq (htree : f.aliasTree = some t) :
    classifyWith settings f depends modRef
      = f.loops.preOrder.foldlM (visitLoop settings f t depends modRef) {} := by
  unfold classifyWith LoopNest.topLevel LoopNest.preOrder
  rw [htree, Forest.stackOrder_eq, List.foldlM_map, foldlM_flatMap]
  dsimp only
  rw [List.foldlM_map]
  refine foldlM_congr (fun r i hi => ?_) _
  exact classifyNest_eq (f.loops.forest.mem_roots.mp hi).1 r

/-- What has been reported once the loops `done` were classified. -/
structure Visited (settings : Settings) (f : Function) (t : AliasTree) (depends : DependenceOracle)
    (modRef : ModRefOracle) (done : List LoopId) (r : FunctionResult) : Prop where
  keys : r.loops.keys = done
  each : ∀ id ∈ done, ∀ loop, f.loops.get? id = some loop → ∃ result,
    classifyLoop settings f t loop depends modRef = .ok result ∧ r.loops.get? id = some result
  statistics : r.statistics = (r.loops.values.map (·.statistics)).sum

/-- One loop more. -/
theorem Visited.visit {done : List LoopId} {r' : FunctionResult}
    (h : Visited settings f t depends modRef done r) (hnew : id ∉ done)
    (hloop : f.loops.get? id = some loop)
    (hr : visitLoop settings f t depends modRef r id = .ok r') :
    Visited settings f t depends modRef (done ++ [id]) r' := by
  unfold visitLoop at hr
  rw [hloop] at hr
  obtain ⟨result, hresult, rfl⟩ := map_eq_ok hr
  have hlist : (r.loops.insert id result).toList = r.loops.toList ++ [(id, result)] :=
    OrderedMap.toList_insert_of_new result (h.keys ▸ hnew)
  constructor
  case keys =>
    show List.map _ (r.loops.insert id result).toList = _
    rw [hlist, List.map_append, ← h.keys]
    rfl
  case each =>
    intro id' hid' loop' hloop'
    -- The new result is the last, and it hides none of those before.
    by_cases hne : id' = id
    · subst hne
      obtain rfl : loop = loop' := Option.some.inj (hloop.symm.trans hloop')
      exact ⟨result, hresult, OrderedMap.get?_insert_self ..⟩
    · have hdone : id' ∈ done := by
        rcases List.mem_append.mp hid' with hid' | hid'
        · exact hid'
        · exact absurd (List.mem_singleton.mp hid') hne
      obtain ⟨result', hresult', hget⟩ := h.each id' hdone loop' hloop'
      exact ⟨result', hresult', (OrderedMap.get?_insert_of_ne _ _ hne).trans hget⟩
  case statistics =>
    show r.statistics + result.statistics
      = ((List.map _ (r.loops.insert id result).toList).map _).sum
    rw [hlist, List.map_append, List.map_append, List.sum_append, h.statistics]
    show _ = _ + (result.statistics + 0)
    rw [add_zero]
    rfl

/-- After any loops that are all different, each has the result it gives alone. -/
theorem Visited.run {done : List LoopId} (hnodup : done.Nodup)
    (hloops : ∀ id ∈ done, (f.loops.get? id).isSome = true)
    (hr : done.foldlM (visitLoop settings f t depends modRef) {} = .ok r) :
    Visited settings f t depends modRef done r := by
  -- The invariant is about the loops done so far, of which none is met again.
  let P (done : List LoopId) (r : FunctionResult) : Prop := done.Nodup →
    (∀ id ∈ done, (f.loops.get? id).isSome = true) → Visited settings f t depends modRef done r
  have hnone : P [] {} := fun _ _ => ⟨rfl, fun id hid => absurd hid List.not_mem_nil, rfl⟩
  refine foldlM_outcome hnone (fun done id r r' h hr hnodup hloops => ?_) hr hnodup hloops
  rw [List.nodup_append] at hnodup
  rw [List.forall_mem_append] at hloops
  obtain ⟨hdone, -, hnew⟩ := hnodup
  obtain ⟨loop, hloop⟩ := Option.isSome_iff_exists.mp (hloops.2 id List.mem_cons_self)
  exact (h hdone hloops.1).visit (fun hid => hnew id hid id List.mem_cons_self rfl) hloop hr

/-- The first loop, in the order of the nest, that cannot be classified has the error `e`. -/
def FailsFirst (settings : Settings) (f : Function) (t : AliasTree) (depends : DependenceOracle)
    (modRef : ModRefOracle) (e : ClassifyError) : Prop :=
  ∃ before id after loop, f.loops.preOrder = before ++ id :: after ∧ f.loops.get? id = some loop
    ∧ classifyLoop settings f t loop depends modRef = .error e
    ∧ ∀ id' ∈ before, ∀ loop', f.loops.get? id' = some loop' →
      (classifyLoop settings f t loop' depends modRef).isOk = true

/-- A loop that cannot be added cannot be classified. -/
theorem visitLoop_eq_error {e : ClassifyError} (hloop : f.loops.get? id = some loop)
    (h : visitLoop settings f t depends modRef r id = .error e) :
    classifyLoop settings f t loop depends modRef = .error e := by
  unfold visitLoop at h
  rw [hloop] at h
  dsimp only at h
  cases hclassify : classifyLoop settings f t loop depends modRef with
  | error e' =>
    rw [hclassify] at h
    cases h
    rfl
  | ok result =>
    rw [hclassify] at h
    cases h

/-- A run through all loops fails at the first that cannot be classified. -/
theorem failsFirst_of_error {e : ClassifyError}
    (h : f.loops.preOrder.foldlM (visitLoop settings f t depends modRef) {} = .error e) :
    FailsFirst settings f t depends modRef e := by
  obtain ⟨before, id, after, r, hsplit, hbefore, hid⟩ := foldlM_eq_error h
  -- The loops before the failing one were all classified.
  have hnodup := f.loops.preOrder_nodup
  have hloops : ∀ id ∈ f.loops.preOrder, (f.loops.get? id).isSome = true :=
    fun _ => LoopNest.mem_preOrder.mp
  rw [hsplit] at hnodup hloops
  obtain ⟨hbeforeLoops, hidLoop⟩ := List.forall_mem_append.mp hloops
  obtain ⟨loop, hloop⟩ := Option.isSome_iff_exists.mp (hidLoop id List.mem_cons_self)
  have v := Visited.run (List.nodup_append.mp hnodup).1 hbeforeLoops hbefore
  refine ⟨before, id, after, loop, hsplit, hloop, visitLoop_eq_error hloop hid,
    fun id' hid' loop' hloop' => ?_⟩
  obtain ⟨result, hresult, -⟩ := v.each id' hid' loop' hloop'
  rw [hresult]
  rfl

end Descent

/-- The loops of a function are classified exactly if each of them is. Then there is one result per
loop, in the order of the nest: the one that the loop gives alone. The statistics of the function
are the sum of those of its loops. Else the error is that of the first loop that cannot be
classified. -/
theorem classifyWith_outcome {f : Function} {t : AliasTree} (htree : f.aliasTree = some t)
    (settings : Settings) (depends : DependenceOracle) (modRef : ModRefOracle) :
    ((classifyWith settings f depends modRef).isOk = true ↔ ∀ id loop,
        f.loops.get? id = some loop → (classifyLoop settings f t loop depends modRef).isOk = true)
      ∧ (∀ result, classifyWith settings f depends modRef = .ok result →
        result.loops.keys = f.loops.preOrder
          ∧ (∀ id, id ∈ result.loops.keys ↔ (f.loops.get? id).isSome = true)
          ∧ (∀ id loop, f.loops.get? id = some loop → ∃ r,
            classifyLoop settings f t loop depends modRef = .ok r ∧ result.loops.get? id = some r)
          ∧ result.statistics = (result.loops.values.map (·.statistics)).sum)
      ∧ ∀ e, classifyWith settings f depends modRef = .error e →
        FailsFirst settings f t depends modRef e := by
  -- The run is a fold over the loops in pre-order; what it has visited is the invariant `Visited`.
  rw [classifyWith_eq htree]
  have hall {id : LoopId} {loop : Loop} (h : f.loops.get? id = some loop) :
      id ∈ f.loops.preOrder := LoopNest.mem_preOrder.mpr (by rw [h]; rfl)
  have hvisited {result : FunctionResult}
      (h : f.loops.preOrder.foldlM (visitLoop settings f t depends modRef) {} = .ok result) :=
    Visited.run f.loops.preOrder_nodup (fun _ => LoopNest.mem_preOrder.mp) h
  refine ⟨?_, fun result h => ?_, fun e h => failsFirst_of_error h⟩
  · cases hrun : f.loops.preOrder.foldlM (visitLoop settings f t depends modRef) {} with
    | ok result =>
      refine ⟨fun _ id loop hloop => ?_, fun _ => rfl⟩
      obtain ⟨r, hr, -⟩ := (hvisited hrun).each id (hall hloop) loop hloop
      rw [hr]
      rfl
    | error e =>
      obtain ⟨-, id, -, loop, -, hloop, hfails, -⟩ := failsFirst_of_error hrun
      refine ⟨fun h => (by cases h), fun h => ?_⟩
      have hok := h id loop hloop
      rw [hfails] at hok
      cases hok
  · have v := hvisited h
    refine ⟨v.keys, fun id => ?_, fun id loop hloop => v.each id (hall hloop) loop hloop,
      v.statistics⟩
    rw [v.keys]
    exact LoopNest.mem_preOrder

/-! An outer loop, a loop after it, and a loop that is added last and stands inside the first. -/

/-- The nest. -/
def threeLoopsNest : LoopNest := .ofSpecs [
  ⟨"outer", none, ⟨1⟩, .ofList [⟨1⟩, ⟨2⟩], ⟨0⟩, ⟨1⟩, none⟩,
  ⟨"next", none, ⟨3⟩, .ofList [⟨3⟩], ⟨0⟩, ⟨1⟩, none⟩,
  ⟨"inner", some ⟨0⟩, ⟨2⟩, .ofList [⟨2⟩], ⟨0⟩, ⟨1⟩, none⟩]

/-- The function, with the same facts for all three loops but for the accesses. -/
def threeLoops : Function :=
  { halvesFunction ∅ ∅ with
    loops := threeLoopsNest
    defUse := ((halvesFunction ∅ ∅).defUse.insert ⟨1⟩ ∅).insert ⟨2⟩ ∅
    live := ((halvesFunction ∅ ∅).live.insert ⟨1⟩ ∅).insert ⟨2⟩ ∅ }

/-- The inner loop is reported before the one that was added before it. -/
theorem classifyWith_outcome_threeLoops : threeLoops.aliasTree = some halvesTree
    ∧ ∃ result, classify {} threeLoops = .ok result ∧ result.loops.keys = [⟨0⟩, ⟨2⟩, ⟨1⟩]
      ∧ result.statistics = (result.loops.values.map (·.statistics)).sum := by
  obtain ⟨hok, hresult, -⟩ := classifyWith_outcome (f := threeLoops) (t := halvesTree) rfl {}
    threeLoops.depends threeLoops.modRef
  obtain ⟨result, h⟩ := exists_of_isOk (x := classify {} threeLoops) (by decide +kernel)
  obtain ⟨hkeys, -, -, hstatistics⟩ := hresult result h
  have horder : threeLoops.loops.preOrder = [⟨0⟩, ⟨2⟩, ⟨1⟩] := by decide +kernel
  exact ⟨rfl, result, h, hkeys.trans horder, hstatistics⟩

end Privatization
