import Privatization.Collection.SortedSet

/-!
# Identities

Values, instructions, blocks, loops, alias nodes and estimate memories are numbered from zero in
the order they are declared. Each sort of number has its own type and its own written form.
-/

namespace Privatization

/-- A pointer or other named value of a function. -/
structure ValueId where
  index : Nat
  deriving DecidableEq

/-- An instruction of a function. -/
structure InstId where
  index : Nat
  deriving DecidableEq

/-- A basic block. -/
structure BlockId where
  index : Nat
  deriving DecidableEq

/-- A node of the data-flow graph that reaching definitions are attached to. A loop exposes two of
them: its latch and its exit. -/
structure FlowNodeId where
  index : Nat
  deriving DecidableEq

/-- A loop of a function. -/
structure LoopId where
  index : Nat
  deriving DecidableEq

/-- A node of the alias tree. -/
structure AliasNodeId where
  index : Nat
  deriving DecidableEq

/-- An estimate memory: an object or a part of one. -/
structure EstimateId where
  index : Nat
  deriving DecidableEq

instance : ToString ValueId := ⟨fun v => s!"%{v.index}"⟩
instance : ToString InstId := ⟨fun i => s!"inst{i.index}"⟩
instance : ToString BlockId := ⟨fun b => s!"block{b.index}"⟩
instance : ToString FlowNodeId := ⟨fun n => s!"df{n.index}"⟩
instance : ToString LoopId := ⟨fun l => s!"loop{l.index}"⟩
instance : ToString AliasNodeId := ⟨fun n => s!"an{n.index}"⟩
instance : ToString EstimateId := ⟨fun e => s!"em{e.index}"⟩

instance : StrictOrder BlockId := .ofNumber (·.index) fun ⟨_⟩ ⟨_⟩ h => congrArg BlockId.mk h

end Privatization
