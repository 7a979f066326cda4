import Privatization.Program.LoopNest
import Privatization.Proofs.Forest.Order

/-!
# How loop nests grow

An addition puts the new loop behind all others and inside the loop it was added to, and changes
nothing else (`children_add`, `topLevel_add`). It does not ask whether the name of the new loop is
new; the first loop of a name is the one that is found (`find?_add`). The order of a nest has every
loop once (`preOrder_nodup`).
-/

namespace Privatization

namespace LoopNest

variable {n n' : LoopNest} {s : LoopSpec} {id : LoopId}

theorem get?_isSome : (n.get? id).isSome = true ↔ id.index < n.forest.size := by
  unfold get?
  rw [Option.isSome_iff_exists]
  constructor
  · rintro ⟨l, hl⟩
    exact (Array.getElem?_eq_some_iff.mp hl).1
  · intro h
    exact ⟨_, Array.getElem?_eq_getElem h⟩

/-- The pre-order of a nest comes to its loops and to nothing else. -/
theorem mem_preOrder : id ∈ n.preOrder ↔ (n.get? id).isSome = true := by
  rw [get?_isSome, ← n.forest.mem_stackOrder_roots]
  unfold preOrder
  constructor
  · intro h
    obtain ⟨i, hi, rfl⟩ := List.mem_map.mp h
    exact hi
  · intro h
    exact List.mem_map.mpr ⟨id.index, h, rfl⟩

/-- The pre-order comes to each loop once. -/
theorem preOrder_nodup (n : LoopNest) : n.preOrder.Nodup := by
  refine List.pairwise_map.mpr (n.forest.stackOrder_roots_nodup.imp fun {i j} hne heq => hne ?_)
  exact congrArg LoopId.index heq

/-- The loop that is asked for, once its number and its depth are known. -/
def LoopSpec.loop (s : LoopSpec) (id : LoopId) (depth : Nat) : Loop where
  id := id
  name := s.name
  header := s.header
  blocks := s.blocks
  latch := s.latch
  exit := s.exit
  depth := depth
  start := s.start
  parent := s.parent

/-- An added loop has its header among its blocks and a depth under its parent, and becomes the
last. -/
theorem exists_depth_of_add (h : n.add s = .ok (n', id)) :
    s.header ∈ s.blocks ∧ id = ⟨n.loops.size⟩ ∧ ∃ depth, n.depthUnder s = .ok depth
      ∧ n'.loops = n.loops.push (s.loop id depth) := by
  unfold add at h
  split at h
  next hheader =>
    split at h
    · cases h
    next d hd =>
      cases h
      exact ⟨hheader, rfl, d, hd, rfl⟩
  · cases h

/-- An added loop lies in a loop added before it. -/
theorem add_eq_ok (h : n.add s = .ok (n', id)) :
    ∃ l : Loop, l.name = s.name ∧ l.parent = s.parent ∧ l.id = id ∧ n'.loops = n.loops.push l
      ∧ id = ⟨n.loops.size⟩ ∧ ∀ p, s.parent = some p → p.index < n.loops.size := by
  obtain ⟨-, hid, d, hd, hloops⟩ := exists_depth_of_add h
  exact ⟨s.loop id d, rfl, rfl, rfl, hloops, hid, fun p hp => parent_lt_of_depthUnder hd hp⟩

/-- Parents are kept by an addition, and the new loop gets the one it was added to. -/
theorem parent_add (h : n.add s = .ok (n', id)) (i : Nat) :
    n'.forest.parent i
      = if i = n.loops.size then s.parent.map (·.index) else n.forest.parent i := by
  obtain ⟨l, -, hl, -, hloops, -, -⟩ := add_eq_ok h
  show (n'.loops[i]?.bind (·.parent)).map (·.index) = _
  rw [hloops, Array.getElem?_push]
  split
  · show l.parent.map (·.index) = _
    rw [hl]
  · rfl

/-- A name that is already borne stands for the loop it stood for. -/
theorem find?_add (h : n.add s = .ok (n', id)) (name : String) :
    n'.find? name = (n.find? name).or (if name = s.name then some id else none) := by
  obtain ⟨l, hname, -, rfl, hloops, -, -⟩ := add_eq_ok h
  unfold find?
  rw [hloops, Array.toList_push, List.find?_append, Option.map_or, ← hname]
  congr 1
  by_cases heq : name = l.name
  · simp [heq]
  · simp [heq, Ne.symm heq]

/-- Of the loops with a given parent, an addition keeps the old ones and appends the new one. -/
theorem filter_parent_add (h : n.add s = .ok (n', id)) (q : Option Nat) :
    (List.range n'.forest.size).filter (fun c => n'.forest.parent c == q)
      = (List.range n.forest.size).filter (fun c => n.forest.parent c == q)
        ++ if s.parent.map (·.index) = q then [n.loops.size] else [] := by
  obtain ⟨l, -, -, -, hloops, -, -⟩ := add_eq_ok h
  have hsize : n'.forest.size = n.forest.size + 1 :=
    (congrArg Array.size hloops).trans (Array.size_push l)
  exact Forest.filter_parent_concat hsize (parent_add h) q

/-- A new loop comes last among the loops inside its parent, and leaves those of other loops. -/
theorem children_add (h : n.add s = .ok (n', id)) (p : LoopId) :
    n'.children p = n.children p ++ if s.parent = some p then [id] else [] := by
  obtain ⟨-, -, -, -, -, rfl, -⟩ := add_eq_ok h
  have hinj : s.parent.map (·.index) = some p.index ↔ s.parent = some p := by
    rw [Option.map_eq_some_iff]
    constructor
    · rintro ⟨⟨q⟩, hq, rfl⟩
      exact hq
    · exact fun hp => ⟨p, hp, rfl⟩
  unfold children Forest.children
  rw [filter_parent_add h, List.map_append]
  simp only [hinj]
  split <;> rfl

/-- A new loop without parent comes last among the outermost ones. -/
theorem topLevel_add (h : n.add s = .ok (n', id)) :
    n'.topLevel = n.topLevel ++ if s.parent = none then [id] else [] := by
  obtain ⟨-, -, -, -, -, rfl, -⟩ := add_eq_ok h
  unfold topLevel Forest.roots
  rw [filter_parent_add h, List.map_append]
  simp only [Option.map_eq_none_iff]
  split <;> rfl

/-! ## One addition after another -/

/-- The nest that additions grow from one without loops. One that is refused changes nothing. -/
def ofSpecs (specs : List LoopSpec) : LoopNest :=
  specs.foldl (fun n s => match n.add s with
    | .ok (n, _) => n
    | .error _ => n) ∅

/-- The nest with one addition more, or as it was if that is refused. -/
def grow (n : LoopNest) (s : LoopSpec) : LoopNest :=
  match n.add s with
  | .ok (n', _) => n'
  | .error _ => n

theorem ofSpecs_eq (specs : List LoopSpec) : ofSpecs specs = specs.foldl grow ∅ := rfl

end LoopNest

end Privatization
