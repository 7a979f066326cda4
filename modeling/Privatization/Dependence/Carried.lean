import Privatization.Collection.FlagSet
import Privatization.Dependence.Basic

/-!
# Carried dependences

Which kinds of dependence a tested pair contributes to a loop, seen across the iterations of that
loop.
-/

namespace Privatization

/-- A kind of dependence between different iterations of a loop. -/
inductive CarriedKind where
  | flow
  | anti
  | output
  deriving DecidableEq

instance : Enumeration CarriedKind where
  card := 3
  all := [.flow, .anti, .output]
  index
    | .flow => 0
    | .anti => 1
    | .output => 2
  index_lt a := by cases a <;> decide
  index_inj a b h := by cases a <;> cases b <;> simp_all
  index_surj i h := by
    match i, h with
    | 0, _ => exact ⟨.flow, rfl⟩
    | 1, _ => exact ⟨.anti, rfl⟩
    | 2, _ => exact ⟨.output, rfl⟩
  mem_all a := by cases a <;> decide

namespace CarriedKind

/-- The name of a kind in reports. -/
def keyword : CarriedKind → String
  | .flow => "flow"
  | .anti => "anti"
  | .output => "output"

end CarriedKind

/-- A set of carried kinds. -/
abbrev CarriedKinds := FlagSet CarriedKind

/-- The kinds a tested pair contributes at a loop level, or `none` when it carries nothing across
iterations of that loop. Tests report the kind in program order of the pair; where the source
iteration does not precede the destination iteration the roles swap, so that a flow dependence
observed backwards is an anti dependence and the other way round. -/
def Dependence.carried? (d : Dependence) (depth : Nat) (ignoreLoopIndependent : Bool) :
    Option CarriedKinds :=
  let direction := d.direction depth
  if ignoreLoopIndependent && direction == .eq then none
  else
    match d.kind with
    | .input => none
    | .output => some {.output}
    | .flow =>
      if direction = .all then some {.flow, .anti}
      else if direction.isForward then some {.flow} else some {.anti}
    | .anti =>
      if direction = .all then some {.flow, .anti}
      else if direction.isForward then some {.anti} else some {.flow}

end Privatization
