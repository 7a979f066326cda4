import Privatization.Program.Instruction
import Privatization.Program.LoopNest

/-!
# Dependences

What a pairwise dependence test reports about two instructions: the kind of the dependence, and per
loop level the direction and distance between the iterations involved. Loop levels count from 1,
the outermost loop.
-/

namespace Privatization

/-- The kind of a dependence, in program order of the pair. -/
inductive DependenceKind where
  /-- Write then read. -/
  | flow
  /-- Read then write. -/
  | anti
  /-- Write then write. -/
  | output
  /-- Read then read. -/
  | input
  deriving DecidableEq

/-- How the source iteration relates to the destination iteration at one loop level. -/
inductive Direction where
  | lt
  | eq
  | le
  | gt
  | ne
  | ge
  | all
  deriving DecidableEq

namespace Direction

/-- Reads a direction by its letters or its sign. -/
def ofString? : String → Option Direction
  | "lt" | "<" => some .lt
  | "eq" | "=" => some .eq
  | "le" | "<=" => some .le
  | "gt" | ">" => some .gt
  | "ne" | "<>" => some .ne
  | "ge" | ">=" => some .ge
  | "all" | "*" => some .all
  | _ => none

/-- Whether the source iteration precedes the destination iteration, or may equal it. -/
def isForward : Direction → Bool
  | .lt | .le => true
  | _ => false

end Direction

/-- Number of iterations between source and destination. -/
inductive Distance where
  | constant (n : Int)
  | symbolic (expr : String)
  deriving DecidableEq

namespace Distance

instance : ToString Distance where
  toString
    | .constant n => toString n
    | .symbolic expr => expr

/-- Constants ascend before symbolic distances, which come in alphabetical order. -/
def lt : Distance → Distance → Bool
  | .constant m, .constant n => m < n
  | .constant _, .symbolic _ => true
  | .symbolic _, .constant _ => false
  | .symbolic a, .symbolic b => StrictOrder.lt a b

instance : StrictOrder Distance where
  lt := lt
  irrefl a := by cases a <;> simp [lt, StrictOrder.irrefl]
  trans {a b c} h₁ h₂ := by
    cases a <;> cases b <;> cases c <;> simp_all [lt]
    · omega
    · exact StrictOrder.trans h₁ h₂
  eq_of_not_lt {a b} h₁ h₂ := by
    cases a <;> cases b <;> simp_all [lt]
    · omega
    · exact StrictOrder.eq_of_not_lt h₁ h₂

end Distance

/-- Result of a pairwise dependence test. Both lists are indexed by loop level minus one. -/
structure Dependence where
  kind : DependenceKind
  directions : List Direction
  distances : List (Option Distance)
  deriving DecidableEq

namespace Dependence

/-- Direction at a loop level; levels that were not reported are unconstrained. -/
def direction (d : Dependence) : Nat → Direction
  | 0 => .all
  | level + 1 => d.directions[level]?.getD .all

/-- Distance at a loop level, if it is known. -/
def distance? (d : Dependence) : Nat → Option Distance
  | 0 => none
  | level + 1 => d.distances[level]?.join

end Dependence

/-- What an instruction may do to a location. -/
inductive ModRef where
  | noModRef
  | ref
  | mod
  | modRef
  deriving DecidableEq

namespace ModRef

/-- Reads an answer by name. -/
def ofString? : String → Option ModRef
  | "none" | "nomodref" => some .noModRef
  | "ref" => some .ref
  | "mod" => some .mod
  | "modref" => some .modRef
  | _ => none

/-- Whether the location is neither read nor written. -/
def isNoModRef (m : ModRef) : Bool := m == .noModRef

end ModRef

/-- Answers the dependence test for two instructions inside a loop. -/
abbrev DependenceOracle := InstId → InstId → Loop → Option Dependence

/-- Answers what an instruction may do to a location. -/
abbrev ModRefOracle := Instruction → MemoryLocation → ModRef

end Privatization
