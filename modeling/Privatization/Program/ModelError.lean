import Privatization.Ident

/-!
# Malformed models

The ways in which an alias tree or a loop nest refuses to grow, and their wording.
-/

namespace Privatization

/-- Why an alias node, estimate memory, unknown access or loop cannot be added. -/
inductive ModelError where
  | unknownEstimate (em : EstimateId)
  | unknownAliasNode (node : AliasNodeId)
  | unknownLoop (parent : LoopId)
  | secondTop
  | noPointer
  /-- The parent memory lives in `home`, which does not enclose `node`. -/
  | notEnclosing (parent : EstimateId) (home node : AliasNodeId)
  | headerOutside (header : BlockId) (name : String)
  | notNested (name parent : String)
  deriving DecidableEq

/-- The wording of a model error. -/
def ModelError.message : ModelError → String
  | unknownEstimate em => s!"Unknown estimate memory: {em}"
  | unknownAliasNode node => s!"Unknown alias node: {node}"
  | unknownLoop parent => s!"Unknown loop: {parent}"
  | secondTop => "Malformed alias tree: only the root may be a top node"
  | noPointer => "Malformed alias tree: estimate memory needs at least one pointer"
  | notEnclosing parent home node =>
    s!"Malformed alias tree: {parent} lives in {home} which is not an ancestor of {node}"
  | headerOutside header name =>
    s!"Malformed region nest: header {header} of {name} is not one of its blocks"
  | notNested name parent => s!"Malformed region nest: {name} is not nested inside {parent}"

end Privatization
