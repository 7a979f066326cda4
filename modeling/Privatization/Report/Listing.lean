import Privatization.Report.Function
import Privatization.Report.Style

/-!
# Listings

The result for a function as a text to read. Each loop is headed by where it starts, indented by its
depth. Under it stands a line per category that has members, followed by a line per alias node in
that category with the memory and the unknown accesses of the node.
-/

namespace Privatization.Report

/-- The form a result is written in. -/
inductive Format where
  | text
  | json
  deriving DecidableEq

/-- A name that is no format. -/
structure UnknownFormat where
  name : String

/-- The wording of an unknown format. -/
def UnknownFormat.message (e : UnknownFormat) : String := "Unknown output format: " ++ e.name

/-- Reads the name of a format, whose ASCII letters may be in either case. -/
def Format.ofString? (s : String) : Except UnknownFormat Format :=
  match s.map Char.toLower with
  | "text" => .ok .text
  | "json" => .ok .json
  | name => .error ⟨name⟩

/-- How a result is written. -/
structure Presentation where
  format : Format := .text
  contents : Contents := {}
  indent : Indent := .spaces 1
  colors : Bool := false

/-- The layout of the lines of a listing. -/
def Presentation.layout (p : Presentation) : Layout := { unit := p.indent.unit, colors := p.colors }

section Listing

variable (f : Function) (t : AliasTree) (p : Presentation)

/-- Whether something of the categories `own` is listed under `category`. Address access lists only
what has an escaping address; every other category lists all that the loop touches. -/
def isListed (category : Category) (own : Categories) : Bool :=
  if category = .addressAccess then own.has .addressAccess else !own.has .noAccess

/-- The members of a node listed under a category. -/
def members (category : Category) (n : NodeTrait) : List String :=
  ((n.memories.filter fun m => isListed category m.categories).map
    fun m => memoryLabel f t m.memory)
  ++ if p.contents.unknowns then
      (n.unknowns.filter fun u => isListed category u.categories).map
        fun u => "<" ++ unknownName f u.inst ++ ">"
    else []

/-- The lines of a category of a loop: one per node with members, behind the category itself. -/
def categoryLines (l : Layout) (nodes : List NodeTrait) (category : Category) : String :=
  let listed := (nodes.filter (·.categories.has category)).map (members f t p category)
  match listed.filter (!·.isEmpty) with
  | [] => ""
  | rows =>
    l.paintedLine .cyan (" " ++ category.keyword ++ ":")
      ++ String.join (rows.map fun row => l.line ("  " ++ " ".intercalate row))

/-- The lines of a loop. -/
def loopLines (loop : Loop) (r : LoopResult) : String :=
  let l := p.layout.atLevel loop.depth
  let label := (loop.start.map toString).getD loop.name
  let nodes := r.traits.values.filter (·.node != AliasTree.top)
  l.paintedLine .yellow label ++ String.join (Category.all.map (categoryLines f t p l nodes))

end Listing

/-- The lines of the statistics: the counters that are not zero. -/
def statisticsLines (l : Layout) (s : Statistics) : String :=
  l.heading "statistics"
    ++ String.join ((s.entries.filter (·.2 != 0)).map fun (name, count) =>
      l.line (name ++ ": " ++ toString count.toNat))

/-- The listing of the result for a function. -/
def listing (f : Function) (p : Presentation) (r : FunctionResult) : String :=
  p.layout.heading f.name
    ++ (match f.aliasTree with
      | some t => String.join ((loopsOf f r).map fun (loop, result) => loopLines f t p loop result)
      | none => "")
    ++ if p.contents.statistics then statisticsLines p.layout r.statistics else ""

/-- The result for a function in the form asked for, with a line end after it. -/
def present (f : Function) (p : Presentation) (r : FunctionResult) : String :=
  match p.format with
  | .text => listing f p r
  | .json => (FunctionReport.of f p.contents r).json.pretty ++ "\n"

end Privatization.Report
