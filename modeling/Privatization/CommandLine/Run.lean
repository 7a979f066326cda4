import Privatization.AnalysisCache
import Privatization.CommandLine.Arguments
import Privatization.Facts.Files

/-!
# Runs

What the program does on a command line: `analyze` classifies the loops of a facts file, `check` says
whether facts files are valid. A run reads and writes files and ends in an exit code and two texts.
-/

namespace Privatization.CommandLine

open Files (FileSystem)
open Report (Style Presentation FunctionReport)

/-- How a run ends: the exit code, and the texts for the standard streams. -/
structure Outcome where
  code : Nat := 0
  stdout : String := ""
  stderr : String := ""

/-! ### Failures -/

/-- What could not be done, and the errors behind it, the outer ones first. -/
structure Failure where
  message : String
  causes : List String

namespace Failure

/-- A cause behind its label; further lines are indented by as many blanks as the label is wide. -/
def causeText (label cause : String) : String :=
  label ++ ("\n" ++ "".pushn ' ' label.length).intercalate (cause.splitOn "\n")

/-- The causes, which are numbered where there are several. -/
def causeTexts : List String → List String
  | [cause] => [causeText "    " cause]
  | causes => causes.zipIdx.map fun (cause, n) =>
    let number := toString n
    causeText ("".pushn ' ' (5 - number.length) ++ number ++ ": ") cause

/-- The text of a failure. -/
def text (f : Failure) : String :=
  "Error: " ++ f.message
    ++ (if f.causes.isEmpty then ""
      else "\n\nCaused by:\n" ++ "\n".intercalate (causeTexts f.causes))
    ++ "\n"

/-- The run that ends in a failure. -/
def outcome (f : Failure) : Outcome := { code := 1, stderr := f.text }

end Failure

/-! ### Classification of a file -/

/-- Classifies functions in order through one cache, up to the first that fails. -/
def classifyAll (settings : Settings) (functions : List Function) :
    Except (String × CacheError ClassifyError) (List (Function × FunctionResult)) :=
  AnalysisCache.runAll {} (classification settings id some) functions

/-- The results for functions in one text: listings with an empty line between them, or one JSON
value, which is an array where there are several functions. Functions of one name share what is
cached under it, so a later one may come with a result that names loops or memory it lacks. There
the program breaks off, before it classifies the next function, and writes nothing, which
`Guarded.present` shows. This definition goes on, with what `Report.loopsOf` and `Report.memoryName`
say in such a case. -/
def presentAll (p : Presentation) (results : List (Function × FunctionResult)) : String :=
  match p.format, results with
  | .json, results@(_ :: _ :: _) =>
    (Report.Json.array (results.map fun (f, r) => (FunctionReport.of f p.contents r).json)).pretty
      ++ "\n"
  | _, results => "\n".intercalate (results.map fun (f, r) => Report.present f p r)

/-! ### Commands -/

namespace Request

/-- The settings of the classification that a request asks for. -/
def classifySettings (r : Request) : Settings where
  ignoreLoopIndependent := !r.given.has .keepLoopIndependent

/-- Whether colours are on, where the terminal allows them or not. Files hold no colours. -/
def colors (r : Request) (allowed : Bool) : Bool :=
  allowed && !r.given.has .noColor && !r.given.has .output

/-- How the results that a request asks for are written. -/
def presentation (r : Request) (allowed : Bool) : Presentation where
  format := if r.given.value? .format = some "json" then .json else .text
  contents :=
    { unknowns := !r.given.has .noUnknowns, statistics := r.given.has .statistics }
  colors := r.colors allowed

end Request

variable {m : Type → Type} [Monad m]

/-- Classifies the functions in a file, and writes or returns the results. -/
def analyze (fs : FileSystem m) (allowed : Bool) (r : Request) : ExceptT Failure m Outcome := do
  let functions ← (Facts.readFile fs r.input).adapt fun e =>
    { message := s!"Failed to load {r.input}", causes := e.causes }
  if functions.isEmpty then
    let warning := Style.yellow.paint (r.colors allowed) "  No functions found in input"
    return { stderr := warning ++ "\n" }
  let results ←
    match classifyAll r.classifySettings functions with
    | .ok results => pure results
    | .error (name, e) =>
      throw { message := s!"Failed to classify {name}", causes := [e.message ClassifyError.message] }
  let text := presentAll (r.presentation allowed) results
  match r.given.value? .output with
  | none => return { stdout := text }
  | some path =>
    match ← fs.write path text with
    | .ok _ => return {}
    | .error e => throw { message := s!"Failed to write {path}", causes := [e.message] }

/-- The line on a valid file. -/
def fileLine (path : String) (functions : List Function) : String :=
  let loops := functions.foldl (fun n f => n + f.loops.size) 0
  s!"   {path}: {functions.length} function(s), {loops} loop(s)\n"

/-- Says whether the facts files at a path or below it are valid. -/
def check (fs : FileSystem m) (allowed : Bool) (r : Request) : m Outcome := do
  let title (style : Style) (text : String) : String := style.paint allowed text ++ "\n"
  match ← (Facts.readFiles fs r.input).run with
  | .ok [] => return { stdout := title .yellow " No facts files found" }
  | .ok files =>
    let lines := files.map fun (path, functions) => fileLine path functions
    return { stdout := title .boldBrightGreen " VALID"
      ++ if r.given.has .verbose then String.join lines else "" }
  | .error e =>
    let failure : Failure := { message := "Validation failed", causes := [] }
    return { failure.outcome with
      stdout := title .boldBrightRed " INVALID" ++ "\n" ++ title .brightRed "Parse Error:"
        ++ e.message ++ "\n" }

/-- How the program is called. -/
def usage : String :=
  "Usage: privscan analyze [OPTIONS] <INPUT>\n       privscan check [OPTIONS] <INPUT>\n"

/-- What the program does on a command line, with colours or without. -/
def run (fs : FileSystem m) (allowed : Bool) (words : List String) : m Outcome := do
  match Request.ofWords words with
  | .error .version => return { stdout := "privscan 0.1.0\n" }
  | .error .help => return { stdout := usage }
  | .error (.misuse e) => return { code := 2, stderr := s!"error: {e.message}\n\n{usage}" }
  | .ok r =>
    match r.command with
    | .check => check fs allowed r
    | .analyze =>
      match ← (analyze fs allowed r).run with
      | .ok outcome => return outcome
      | .error failure => return failure.outcome

end Privatization.CommandLine
