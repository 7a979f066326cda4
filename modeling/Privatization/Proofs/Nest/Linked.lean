import Privatization.Proofs.Nest.Records

/-!
# The records of a loop nest

`records` writes a loop nest with the loops that are directly inside each of its loops. An addition
to the records of a nest gives the records of the nest with the addition (`run_addLoop_records`), so
records that were built are those of a nest (`built_eq`), and the walk over them gives the order of
the nest (`order_records`).
-/

namespace Privatization

namespace LoopNest

/-! ## The records of a nest -/

section View

variable (n : LoopNest)

/-- The record of a loop, with the loops directly inside it. -/
def loopRecord (i : Nat) (l : Loop) : LoopRecord where
  toLoop := l
  children := n.children ⟨i⟩

/-- The nest with everything that lies directly inside a loop listed there. -/
def records : Records where
  loops := n.loops.mapIdx n.loopRecord
  topLevel := n.topLevel

end View

variable {n n' : LoopNest} {s : LoopSpec} {id : LoopId}

/-- There is a record for each loop. -/
@[simp] theorem size_records : n.records.loops.size = n.loops.size := Array.size_mapIdx

/-- The record of a number is that of the loop with the number. -/
theorem records_get? (i : Nat) : n.records.loops[i]? = n.loops[i]?.map (n.loopRecord i) :=
  Array.getElem?_mapIdx

/-- Parents are kept as they are. -/
theorem records_parent? (id : LoopId) : n.records.parent? id = (n.get? id).bind (·.parent) := by
  rw [Records.parent?, records_get?, Option.bind_map]
  rfl

/-- A nest without loops has no records. -/
theorem records_empty : records ∅ = .empty := rfl

/-! ### Additions -/

/-- A new loop gets the same depth on the records, or is refused for the same reason. -/
theorem depthUnder_records : n.records.depthUnder s = n.depthUnder s := by
  unfold Records.depthUnder depthUnder get?
  cases s.parent with
  | none => rfl
  | some p =>
    dsimp only
    rw [records_get?]
    cases n.loops[p.index]? <;> rfl

/-- A number that is not given yet has no loops inside. -/
theorem children_eq_nil (h : n.loops.size ≤ id.index) : n.children id = [] := by
  refine List.eq_nil_iff_forall_not_mem.mpr fun c hc => ?_
  have hlt := lt_of_mem_children hc
  unfold size at hlt
  omega

/-- The records after an addition are those before it, with the new loop listed where it belongs. -/
theorem records_add {depth : Nat} (h : n.add s = .ok (n', id))
    (hloops : n'.loops = n.loops.push (s.loop id depth)) :
    n'.records = Records.list s.parent id (Records.push { s.loop id depth with children := [] }
      n.records) := by
  obtain ⟨-, rfl, -⟩ := exists_depth_of_add h
  -- The new number has nothing inside yet.
  have hnew (l : Loop) : n.loopRecord n.loops.size l = { l with children := [] } := by
    have hnone : n.children ⟨n.loops.size⟩ = [] := children_eq_nil (Nat.le_refl _)
    unfold loopRecord
    rw [hnone]
  have hlists (i : Nat) (l : Loop) : n'.loopRecord i l
      = if s.parent = some ⟨i⟩ then .addChild ⟨n.loops.size⟩ (n.loopRecord i l)
        else n.loopRecord i l := by
    unfold loopRecord LoopRecord.addChild
    rw [children_add h]
    split
    · rfl
    · rw [List.append_nil]
  unfold records Records.push
  rw [hloops, topLevel_add h]
  cases hp : s.parent with
  | none =>
    have hsame : n'.loopRecord = n.loopRecord := by
      -- Below no loop, only the list of outermost loops grows.
      funext i l
      rw [hlists, hp]
      rfl
    rw [hsame, Array.mapIdx_push, hnew]
    rfl
  | some p =>
    have hlists (i : Nat) (l : Loop) : n'.loopRecord i l
        = if p.index = i then .addChild ⟨n.loops.size⟩ (n.loopRecord i l)
          else n.loopRecord i l := by
      rw [hlists, hp]
      exact if_congr (Option.some_inj.trans ⟨congrArg LoopId.index, congrArg LoopId.mk⟩) rfl rfl
    rw [mapIdx_eq_modify hlists, Array.mapIdx_push, hnew]
    simp [Records.list]

/-- Made on the records of a nest, an addition gives those of the nest with the addition, or is
refused for the same reason. -/
theorem run_addLoop_records (s : LoopSpec) :
    (Records.addLoop s).run n.records =
      match n.add s with
      | .ok (n', id) => .ok id n'.records
      | .error e => .error e n.records := by
  rw [Records.run_addLoop, depthUnder_records, size_records]
  cases h : n.add s with
  | ok q =>
    obtain ⟨n', id⟩ := q
    obtain ⟨hheader, rfl, depth, hdepth, hloops⟩ := exists_depth_of_add h
    rw [if_pos hheader, hdepth]
    dsimp only
    rw [records_add h hloops]
  | error e =>
    unfold add at h
    split at h
    next hheader =>
      rw [if_pos hheader]
      split at h
      next e' he => cases h; rw [he]
      next => cases h
    next hheader => cases h; rw [if_neg hheader]

/-- A refused addition changes neither. -/
theorem after_records (n : LoopNest) (s : LoopSpec) : n.records.after s = (n.grow s).records := by
  unfold Records.after grow
  rw [run_addLoop_records]
  cases n.add s <;> rfl

/-- Building record by record gives the records of the nest. -/
theorem built_eq (specs : List LoopSpec) : Records.built specs = (ofSpecs specs).records := by
  have hfold (n : LoopNest) :
      specs.foldl Records.after n.records = (specs.foldl grow n).records := by
    induction specs generalizing n with
    | nil => rfl
    | cons s specs ih => rw [List.foldl_cons, List.foldl_cons, after_records, ih]
  rw [Records.built, ← records_empty, ofSpecs_eq]
  exact hfold ∅

/-! ### The order -/

/-- The walk goes down to the children that the nest has. -/
theorem below_records {i : Nat} (h : i < n.forest.size) :
    n.records.below i = .ok (n.forest.children i) := by
  have hchildren : (n.children ⟨i⟩).map (·.index) = n.forest.children i := by
    unfold children
    rw [List.map_map]
    exact List.map_id _
  unfold Records.below
  rw [records_get?, Array.getElem?_eq_getElem h, ← hchildren]
  rfl

/-- The walk over the lists that are kept ends, and gives the order of the nest. -/
theorem order_records (n : LoopNest) : n.records.order = .ok n.preOrder := by
  have houtermost : n.topLevel.map (·.index) = n.forest.roots := by
    unfold topLevel
    rw [List.map_map]
    exact List.map_id _
  have hwalk : Guarded.loop (Guarded.descendTurn n.records.below) (n.loops.size + 1)
      (n.forest.roots, []) = .ok ([] ++ n.forest.stackOrder n.forest.roots) :=
    Guarded.loop_descendTurn (fun _ => below_records) (fun _ hi => (n.forest.mem_roots.mp hi).1)
      (Nat.lt_succ_of_le n.forest.length_stackOrder_roots_le)
  unfold Records.order
  dsimp only
  rw [size_records, show n.records.topLevel = n.topLevel from rfl, houtermost, hwalk]
  rfl

end LoopNest

end Privatization
