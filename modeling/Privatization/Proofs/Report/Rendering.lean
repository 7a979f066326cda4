import Privatization.Proofs.Classification.EveryLoop
import Privatization.Report.Listing

/-!
# Listings from reports

A listing and a report go through the results of a function on their own: each leaves out the root
of the alias tree, each looks names and sizes up, and the listing decides member by member what to
list. All the same the listing says nothing that the report does not: a listing without colours is a
text made of the report alone (`present_eq_listing`).
-/

namespace Privatization.Report

/-! ### A report as a text -/

/-- Name and size of a memory between angle brackets. -/
def MemoryReport.label (m : MemoryReport) : String :=
  "<" ++ m.name ++ ", " ++ showSize m.size ++ ">"

/-- An unknown access between angle brackets. -/
def UnknownReport.label (u : UnknownReport) : String := "<" ++ u.access ++ ">"

/-- What a category lists of a node. -/
def NodeReport.members (n : NodeReport) (category : Category) : List String :=
  (n.memories.filter fun m => isListed category m.categories).map (·.label)
    ++ (n.unknowns.filter fun u => isListed category u.categories).map (·.label)

/-- The lines of a category. -/
def LoopReport.categoryLines (l : Layout) (r : LoopReport) (category : Category) : String :=
  match ((r.nodes.filter (·.categories.has category)).map (·.members category)).filter
    (!·.isEmpty) with
  | [] => ""
  | rows => l.line (" " ++ category.keyword ++ ":")
      ++ String.join (rows.map fun row => l.line ("  " ++ " ".intercalate row))

/-- The lines of a loop, where `l` is the layout outside of all loops. -/
def LoopReport.lines (l : Layout) (r : LoopReport) : String :=
  (l.atLevel r.depth).line (r.start.getD r.name)
    ++ String.join (Category.all.map (r.categoryLines (l.atLevel r.depth)))

/-- The report as a text without colours. -/
def FunctionReport.listing (indent : Indent) (r : FunctionReport) : String :=
  let l : Layout := { unit := indent.unit, colors := false }
  l.line ("=== " ++ r.function ++ " ===") ++ String.join (r.loops.map (·.lines l))
    ++ (r.statistics.map (statisticsLines l)).getD ""

/-! ### The text is the listing -/

section Rendering

variable {l : Layout}

/-- Without colours a painted line is a line. -/
theorem paintedLine_plain (hl : l.colors = false) (style : Style) (text : String) :
    l.paintedLine style text = l.line text := by
  rw [Layout.paintedLine, hl]
  rfl

/-- Without colours a heading is a line. -/
theorem heading_plain (hl : l.colors = false) (title : String) :
    l.heading title = l.line ("=== " ++ title ++ " ===") :=
  paintedLine_plain hl .cyan _

variable {f : Function} {t : AliasTree} {p : Presentation}

/-- What the listing leaves out of the results, it leaves out of the reports. -/
theorem members_of (n : NodeTrait) (category : Category) :
    (NodeReport.of f t p.contents n).members category = members f t p category n := by
  unfold NodeReport.members members
  congr 1
  · simp only [NodeReport.of, List.filter_map, List.map_map]
    rfl
  · show ((if p.contents.unknowns then n.unknowns.map _ else []).filter _).map _ = _
    split
    · simp only [List.filter_map, List.map_map]
      rfl
    · rfl

/-- The lines of a category are made of the report. -/
theorem categoryLines_of (hl : l.colors = false) (loop : Loop) (r : LoopResult)
    (category : Category) : (LoopReport.of f t p.contents loop r).categoryLines l category
      = categoryLines f t p l (r.traits.values.filter (·.node != AliasTree.top)) category := by
  have hrows : ((LoopReport.of f t p.contents loop r).nodes.filter (·.categories.has category)).map
      (·.members category) = ((r.traits.values.filter (·.node != AliasTree.top)).filter
        (·.categories.has category)).map (members f t p category) := by
    simp only [LoopReport.of, List.filter_map, List.map_map]
    apply List.map_congr_left
    intro n _
    exact members_of n category
  rw [LoopReport.categoryLines, categoryLines, hrows]
  generalize List.filter (fun row : List String => !row.isEmpty) _ = rows
  cases rows with
  | nil => rfl
  | cons row rows =>
    rw [paintedLine_plain hl]

/-- Without colours the lines of a loop are those of its listing. -/
theorem lines_of (hp : p.colors = false) (loop : Loop) (r : LoopResult) :
    (LoopReport.of f t p.contents loop r).lines p.layout = loopLines f t p loop r := by
  have hl : (p.layout.atLevel loop.depth).colors = false := hp
  -- Category by category; the heading of the loop is the same text.
  have hcategories :
      (LoopReport.of f t p.contents loop r).categoryLines (p.layout.atLevel loop.depth)
      = categoryLines f t p _ (r.traits.values.filter (·.node != AliasTree.top)) :=
    funext (categoryLines_of hl loop r)
  rw [LoopReport.lines, loopLines, paintedLine_plain hl, ← hcategories]
  rfl

/-- A function with an alias tree reports the loops it has results for. -/
theorem loops_of (ht : f.aliasTree = some t) (c : Contents) (r : FunctionResult) :
    (FunctionReport.of f c r).loops
      = (loopsOf f r).map fun q => LoopReport.of f t c q.1 q.2 := by
  rw [FunctionReport.of, ht]

/-- A function without alias tree reports none. -/
theorem loops_of_none (hf : f.aliasTree = none) (c : Contents) (r : FunctionResult) :
    (FunctionReport.of f c r).loops = [] := by
  rw [FunctionReport.of, hf]

/-- The lines of the counters are made of the report. -/
theorem statistics_of (l : Layout) (c : Contents) (r : FunctionResult) :
    ((FunctionReport.of f c r).statistics.map (statisticsLines l)).getD ""
      = if c.statistics then statisticsLines l r.statistics else "" := by
  show ((if c.statistics then some r.statistics else none).map _).getD "" = _
  split <;> rfl

/-- The listing of a function is made of its report. -/
theorem listing_of (f : Function) (hp : p.colors = false) (r : FunctionResult) :
    (FunctionReport.of f p.contents r).listing p.indent = listing f p r := by
  have hlayout : ({ unit := p.indent.unit, colors := false } : Layout) = p.layout := by
    rw [Presentation.layout, hp]
  rw [FunctionReport.listing, hlayout, statistics_of, listing, heading_plain hp]
  cases ht : f.aliasTree with
  | some t =>
    have hloops : (FunctionReport.of f p.contents r).loops.map (·.lines p.layout)
        = (loopsOf f r).map fun q => loopLines f t p q.1 q.2 := by
      rw [loops_of ht, List.map_map]
      exact List.map_congr_left fun q _ => lines_of hp q.1 q.2
    rw [hloops]
    rfl
  | none =>
    rw [loops_of_none ht]
    rfl

end Rendering

/-! ### What is listed is reported -/

/-- A memory or an unknown access is among the members that a category lists of a node. -/
def NodeReport.Lists (n : NodeReport) (category : Category) (label : String) : Prop :=
  (∃ m ∈ n.memories, isListed category m.categories ∧ m.label = label)
    ∨ ∃ u ∈ n.unknowns, isListed category u.categories ∧ u.label = label

/-- What a category lists of a node stands in the report of the node. -/
theorem mem_members {n : NodeReport} {category : Category} {label : String} :
    label ∈ n.members category ↔ n.Lists category label := by
  simp only [NodeReport.members, NodeReport.Lists, List.mem_append, List.mem_map, List.mem_filter,
    and_assoc]

/-- Without colours, what is written of a result as text is a text made of the report with the same
contents. Functions and results with equal reports are therefore listed alike, and what is listed
under a category of a loop stands in the report of that loop, at a node with the category. -/
theorem present_eq_listing (f : Function) {p : Presentation} (hformat : p.format = .text)
    (hcolors : p.colors = false) (r : FunctionResult) :
    present f p r = (FunctionReport.of f p.contents r).listing p.indent
    ∧ (∀ (g : Function) (q : FunctionResult),
        FunctionReport.of f p.contents r = FunctionReport.of g p.contents q →
          present f p r = present g p q)
    ∧ ∀ t, f.aliasTree = some t → ∀ loop result, (loop, result) ∈ loopsOf f r →
        ∀ n ∈ result.traits.values, n.node ≠ AliasTree.top →
          ∀ category, n.categories.has category → ∀ label ∈ members f t p category n,
            ∃ lr ∈ (FunctionReport.of f p.contents r).loops,
              lr.name = loop.name ∧ lr.start = loop.start.map toString ∧ lr.depth = loop.depth
              ∧ ∃ nr ∈ lr.nodes, nr.node = toString n.node ∧ nr.categories.has category
                ∧ nr.Lists category label := by
  -- The text is a function of the report, which gives the second part as well as the first.
  have hpresent (g : Function) (q : FunctionResult) :
      present g p q = (FunctionReport.of g p.contents q).listing p.indent := by
    rw [listing_of g hcolors q, present, hformat]
  refine ⟨hpresent f r, fun g q h => ?_, ?_⟩
  · rw [hpresent f r, hpresent g q, h]
  · intro t ht loop result hloop n hn hnode category hhas label hlabel
    refine ⟨LoopReport.of f t p.contents loop result, ?_, rfl, rfl, rfl,
      NodeReport.of f t p.contents n, ?_, rfl, hhas, ?_⟩
    · rw [loops_of ht]
      exact List.mem_map.mpr ⟨(loop, result), hloop, rfl⟩
    · apply List.mem_map_of_mem
      exact List.mem_filter.mpr ⟨hn, bne_iff_ne.mpr hnode⟩
    · rw [← mem_members, members_of]
      exact hlabel

/-! A loop that reads an object and calls what may do anything to it. -/

/-- The object, and the call at the node of the object. -/
def callTree : AliasTree := .ofAdditions [
  .node AliasTree.top .unknown, .estimate ⟨1⟩ [⟨0⟩] (some 8) 0 none, .unknown ⟨1⟩ ⟨1⟩]

/-- The function with the loop. -/
def callFunction : Function where
  name := "main"
  values := #[⟨"s", .alloca ⟨0⟩, none⟩]
  instructions := #[⟨⟨0⟩, ⟨2⟩, .load ⟨⟨0⟩, some 8⟩⟩, ⟨⟨1⟩, ⟨2⟩, .call "step" false []⟩]
  aliasTree := some callTree
  loops := .ofSpecs [⟨"body", none, ⟨1⟩, .ofList [⟨1⟩, ⟨2⟩], ⟨0⟩, ⟨1⟩, none⟩]
  defUse := OrderedMap.empty.insert ⟨0⟩
    { explicit := [⟨⟨0⟩, some 8⟩], unknowns := [⟨1⟩], uses := .ofList [⟨⟨0⟩, some 8⟩] }
  reach := (OrderedMap.empty.insert ⟨0⟩ ⟨∅, ∅⟩).insert ⟨1⟩ ⟨∅, ∅⟩
  live := OrderedMap.empty.insert ⟨0⟩ ∅

/-- Everything is presented, the counters included. -/
def withStatistics : Presentation := { contents := { statistics := true } }

/-- What is presented of it. -/
def callListing : String :=
  "=== main ===\n body\n  flow:\n   <s, 8> <step>\n  anti:\n   <s, 8> <step>\n"
    ++ "  output:\n   <s, 8> <step>\n  explicit access:\n   <s, 8> <step>\n"
    ++ "=== statistics ===\nread only: 1\ndependency: 1\n"

/-- The call is listed under the flow dependences, and so the report has it at such a node. -/
theorem present_eq_listing_call : ∃ r, classify {} callFunction = .ok r
    ∧ present callFunction withStatistics r = callListing
    ∧ (FunctionReport.of callFunction withStatistics.contents r).listing (.spaces 1) = callListing
    ∧ ∃ lr ∈ (FunctionReport.of callFunction withStatistics.contents r).loops,
        ∃ nr ∈ lr.nodes, nr.categories.has .flow ∧ nr.Lists .flow "<step>" := by
  have heval : ((classify {} callFunction).toOption.any fun r =>
      present callFunction withStatistics r == callListing
        && (loopsOf callFunction r).any fun q => q.2.traits.values.any fun n =>
          (n.node != AliasTree.top && n.categories.has .flow)
            && (members callFunction callTree withStatistics .flow n).contains "<step>") := by
    decide +kernel
  cases hr : classify {} callFunction with
  | error e =>
    rw [hr] at heval
    cases heval
  | ok r =>
    rw [hr] at heval
    obtain ⟨htext, hlisted⟩ := (Bool.and_eq_true _ _).mp heval
    obtain ⟨⟨loop, result⟩, hloop, hlisted⟩ := List.any_eq_true.mp hlisted
    obtain ⟨n, hn, hlisted⟩ := List.any_eq_true.mp hlisted
    obtain ⟨hat, hlabel⟩ := (Bool.and_eq_true _ _).mp hlisted
    obtain ⟨hnode, hflow⟩ := (Bool.and_eq_true _ _).mp hat
    obtain ⟨hpresent, -, hmembers⟩ := present_eq_listing callFunction
      (show withStatistics.format = .text from rfl) rfl r
    obtain ⟨lr, hlr, -, -, -, nr, hnr, -, hhas, hlists⟩ := hmembers callTree rfl loop result
      hloop n hn (bne_iff_ne.mp hnode) .flow hflow _ (List.contains_iff_mem.mp hlabel)
    exact ⟨r, rfl, eq_of_beq htext, hpresent.symm.trans (eq_of_beq htext), lr, hlr, nr, hnr,
      hhas, hlists⟩

end Privatization.Report
