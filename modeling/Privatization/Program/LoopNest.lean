import Privatization.Collection.Forest
import Privatization.Program.ModelError
import Privatization.Text.SourceLocation

/-!
# Loop nests

The loops of a function, numbered in the order they were added. A loop records its parent; its
children are the loops that name it as parent.
-/

namespace Privatization

/-- A natural loop. -/
structure Loop where
  id : LoopId
  name : String
  header : BlockId
  blocks : SortedSet BlockId
  /-- Data-flow node right before the backward branch. -/
  latch : FlowNodeId
  /-- Data-flow node of the iteration that leaves the loop. -/
  exit : FlowNodeId
  /-- Nesting depth; outermost loops have depth 1. -/
  depth : Nat
  start : Option SourceLocation
  parent : Option LoopId

namespace Loop

/-- Whether a block belongs to the loop. -/
def contains (l : Loop) (block : BlockId) : Bool := decide (block ∈ l.blocks)

end Loop

/-- The loops of one function. -/
structure LoopNest where
  loops : Array Loop
  parent_lt : ∀ (i : Nat) (l : Loop) (p : LoopId),
    loops[i]? = some l → l.parent = some p → p.index < i

namespace LoopNest

instance : EmptyCollection LoopNest := ⟨⟨#[], by simp⟩⟩

instance : Inhabited LoopNest := ⟨∅⟩

/-- Number of loops. -/
def size (n : LoopNest) : Nat := n.loops.size

/-- Whether there is no loop. -/
def isEmpty (n : LoopNest) : Bool := n.loops.isEmpty

/-- The loop with a given number. -/
def get? (n : LoopNest) (id : LoopId) : Option Loop := n.loops[id.index]?

/-- The first loop with a given name. -/
def find? (n : LoopNest) (name : String) : Option LoopId :=
  (n.loops.toList.find? (·.name == name)).map (·.id)

/-- The loops as a forest of numbers. -/
def forest (n : LoopNest) : Forest where
  size := n.loops.size
  parent i := (n.loops[i]?.bind (·.parent)).map (·.index)
  parent_lt {i p} h := by
    simp only [Option.map_eq_some_iff, Option.bind_eq_some_iff] at h
    obtain ⟨q, ⟨l, hl, hq⟩, rfl⟩ := h
    exact n.parent_lt i l q hl hq

/-- The loops directly inside a loop, in the order they were added. -/
def children (n : LoopNest) (id : LoopId) : List LoopId :=
  (n.forest.children id.index).map LoopId.mk

/-- The outermost loops, in the order they were added. -/
def topLevel (n : LoopNest) : List LoopId := n.forest.roots.map LoopId.mk

/-- Every loop, outer loops before the loops they contain, siblings in the order they were
added. -/
def preOrder (n : LoopNest) : List LoopId :=
  (n.forest.stackOrder n.forest.roots).map LoopId.mk

/-- A loop inside another has a larger number. -/
theorem lt_of_mem_children {n : LoopNest} {id c : LoopId} (h : c ∈ n.children id) :
    id.index < c.index ∧ c.index < n.size := by
  obtain ⟨i, hi, rfl⟩ := List.mem_map.mp h
  obtain ⟨hlt, hp⟩ := n.forest.mem_children.mp hi
  exact ⟨n.forest.parent_lt hp, hlt⟩

/-- What is asked of a new loop. -/
structure LoopSpec where
  name : String
  parent : Option LoopId
  header : BlockId
  blocks : SortedSet BlockId
  latch : FlowNodeId
  exit : FlowNodeId
  start : Option SourceLocation

/-- Depth of a loop put inside `parent`, whose blocks must include those of the new loop. -/
def depthUnder (n : LoopNest) (s : LoopSpec) : Except ModelError Nat :=
  match s.parent with
  | none => .ok 1
  | some p =>
    match n.get? p with
    | none => .error (.unknownLoop p)
    | some outer =>
      if s.blocks.subset outer.blocks then .ok (outer.depth + 1)
      else .error (.notNested s.name outer.name)

theorem parent_lt_of_depthUnder {n : LoopNest} {s : LoopSpec} {d : Nat}
    (h : n.depthUnder s = .ok d) {p : LoopId} (hp : s.parent = some p) : p.index < n.loops.size := by
  simp only [depthUnder, hp] at h
  cases hg : n.get? p with
  | none => simp [hg] at h
  | some outer => exact (Array.getElem?_eq_some_iff.mp hg).1

/-- Adds a loop. Its header must be one of its blocks, and its blocks must lie inside its
parent. -/
def add (n : LoopNest) (s : LoopSpec) : Except ModelError (LoopNest × LoopId) :=
  if s.header ∈ s.blocks then
    match h : n.depthUnder s with
    | .error e => .error e
    | .ok depth =>
      let id := LoopId.mk n.size
      let l : Loop :=
        { id, name := s.name, header := s.header, blocks := s.blocks, latch := s.latch,
          exit := s.exit, depth, start := s.start, parent := s.parent }
      .ok (⟨n.loops.push l, fun i k p hk hp => by
        rw [Array.getElem?_push] at hk
        split at hk
        next hi =>
          subst hi
          cases hk
          exact parent_lt_of_depthUnder h hp
        next => exact n.parent_lt i k p hk hp⟩, id)
  else .error (.headerOutside s.header s.name)

end LoopNest

end Privatization
