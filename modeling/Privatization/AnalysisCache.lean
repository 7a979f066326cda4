import Privatization.Classification.Classify

/-!
# Cached analyses

Analyses of functions are run through a cache, which keeps their results by analysis and function
name. Results of different analyses may be of different types; `ρ` holds all of them, and an
analysis says which of them are its own.
-/

namespace Privatization

/-- Which analysis a result belongs to. -/
inductive AnalysisId where
  | privateRecognition
  | custom (name : String)
  deriving DecidableEq

/-- An analysis with results of type `α` and errors of type `ε`. -/
structure Analysis (ε ρ α : Type) where
  id : AnalysisId
  name : String
  description : String := "No description provided"
  run : Function → Except ε α
  store : α → ρ
  read? : ρ → Option α

/-- Why an analysis gives no result through the cache. -/
inductive CacheError (ε : Type) where
  | failed (cause : ε)
  /-- What is cached belongs to an analysis of another type. -/
  | foreignResult

/-- The wording of a cache error. -/
def CacheError.message {ε : Type} (describe : ε → String) : CacheError ε → String
  | failed cause => describe cause
  | foreignResult => "Failed to get analysis result"

/-- One run of an analysis. -/
structure RunRecord where
  analysis : String
  function : String
  deriving DecidableEq

/-- Results by analysis and function name, and the runs recorded so far. -/
structure AnalysisCache (ρ : Type) where
  results : OrderedMap (AnalysisId × String) ρ := ∅
  runs : List RunRecord := []
  recordsRuns : Bool := false

namespace AnalysisCache

variable {ε ρ α : Type}

/-- Records runs from now on. -/
def enableStatistics (c : AnalysisCache ρ) : AnalysisCache ρ := { c with recordsRuns := true }

/-- The result of an analysis, if it is cached and of its type. -/
def get? (c : AnalysisCache ρ) (a : Analysis ε ρ α) (function : String) : Option α :=
  (c.results.get? (a.id, function)).bind a.read?

/-- Whether a result is cached, of whatever type. -/
def isValid (c : AnalysisCache ρ) (id : AnalysisId) (function : String) : Bool :=
  c.results.contains (id, function)

/-- The cached result of an analysis, if it is of its type. -/
def lookup (c : AnalysisCache ρ) (a : Analysis ε ρ α) (f : Function) : Except (CacheError ε) α :=
  match c.get? a f.name with
  | some r => .ok r
  | none => .error .foreignResult

/-- The result of an analysis, which is run where none is cached. A run that fails changes
nothing. -/
def run (c : AnalysisCache ρ) (a : Analysis ε ρ α) (f : Function) :
    AnalysisCache ρ × Except (CacheError ε) α :=
  if c.isValid a.id f.name then (c, c.lookup a f)
  else
    match a.run f with
    | .error e => (c, .error (.failed e))
    | .ok r =>
      let c : AnalysisCache ρ :=
        { c with
          results := c.results.insert (a.id, f.name) (a.store r)
          runs := if c.recordsRuns then c.runs ++ [⟨a.name, f.name⟩] else c.runs }
      (c, c.lookup a f)

/-- The results of an analysis of functions, one after the other through the cache, up to the first
function without one. -/
def runAll (c : AnalysisCache ρ) (a : Analysis ε ρ α) :
    List Function → Except (String × CacheError ε) (List (Function × α))
  | [] => .ok []
  | f :: fs =>
    match c.run a f with
    | (_, .error e) => .error (f.name, e)
    | (c, .ok r) => (c.runAll a fs).map ((f, r) :: ·)

/-- Drops the results for a function. -/
def invalidate (c : AnalysisCache ρ) (function : String) : AnalysisCache ρ :=
  { c with results := c.results.filterKeys fun key => key.2 ≠ function }

/-- Drops all results. -/
def clear (c : AnalysisCache ρ) : AnalysisCache ρ := { c with results := ∅ }

end AnalysisCache

/-- The classification of loops as an analysis. -/
def classification {ρ : Type} (settings : Settings) (store : FunctionResult → ρ)
    (read? : ρ → Option FunctionResult) : Analysis ClassifyError ρ FunctionResult where
  id := .privateRecognition
  name := "private-recognition"
  description := "Classifies loop memory as private, shared, read-only or dependent"
  run := classify settings
  store
  read?

end Privatization
