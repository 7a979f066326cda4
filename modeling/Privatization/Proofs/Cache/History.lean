import Privatization.Proofs.Cache.SharedNames
import Mathlib.Data.List.Basic
import Mathlib.Data.List.Induction
import Mathlib.Data.List.TakeWhile

/-!
# Histories of a cache

A cache is asked for results, told to forget, and told to record runs, in any order. Where analysis
and function name determine the result, every request is answered with what the analysis gives, and
an analysis is run exactly when nothing under the same analysis and name has succeeded since the
name was last dropped (`accounted_of_consistent`). To see when an analysis is run, requests are
answered in a monad in which running one leaves a trace (`AnalysisCache.runIn`); without traces this
is `AnalysisCache.run`.
-/

namespace Privatization

/-- What is asked of a cache. -/
inductive CacheCall (ε ρ : Type) : Type 1 where
  | run {α : Type} (a : Analysis ε ρ α) (f : Function)
  | invalidate (function : String)
  | clear
  | enableStatistics

/-- Whether the call drops the results for a function. -/
def CacheCall.drops {ε ρ : Type} (function : String) : CacheCall ε ρ → Bool
  | invalidate name => name == function
  | clear => true
  | run _ _ | enableStatistics => false

/-- Whether the call has runs recorded. -/
def CacheCall.enables {ε ρ : Type} : CacheCall ε ρ → Bool
  | enableStatistics => true
  | run _ _ | invalidate _ | clear => false

/-- A run of an analysis that did take place. -/
structure Invocation where
  analysis : AnalysisId
  record : RunRecord
  succeeded : Bool
  deriving DecidableEq

namespace Analysis

variable {ε ρ α : Type}

/-- What an analysis gives for a function, of which type, and how the cache keeps that type. -/
structure Answer (ε ρ : Type) where
  Result : Type
  store : Result → ρ
  read? : ρ → Option Result
  value : Except ε Result

/-- The answer is a result, and `v` is what the cache keeps of it. -/
def Answer.Keeps (x : Answer ε ρ) (v : ρ) : Prop := ∃ r, x.value = .ok r ∧ v = x.store r

/-- The answer of an analysis. -/
def answer (a : Analysis ε ρ α) (f : Function) : Answer ε ρ := ⟨α, a.store, a.read?, a.run f⟩

/-- The trace that running an analysis leaves. -/
def invocation (a : Analysis ε ρ α) (f : Function) : Invocation :=
  ⟨a.id, ⟨a.name, f.name⟩, (a.run f).isOk⟩

/-- Runs an analysis and leaves a trace of that. -/
def runTraced (a : Analysis ε ρ α) (f : Function) : StateM (List Invocation) (Except ε α) := do
  modify (· ++ [a.invocation f])
  return a.run f

end Analysis

namespace AnalysisCache

variable {ε ρ α : Type}

/-- The cache with a new result, whose run is recorded if runs are. -/
def remember (c : AnalysisCache ρ) (a : Analysis ε ρ α) (f : Function) (r : α) :
    AnalysisCache ρ :=
  { c with
    results := c.results.insert (a.id, f.name) (a.store r)
    runs := if c.recordsRuns then c.runs ++ [⟨a.name, f.name⟩] else c.runs }

section Effects

variable {m : Type → Type} [Monad m]

/-- `run` in a monad in which running the analysis may have effects. Nothing else has any. -/
def runIn (invoke : Function → m (Except ε α)) (c : AnalysisCache ρ) (a : Analysis ε ρ α)
    (f : Function) : m (AnalysisCache ρ × Except (CacheError ε) α) :=
  if c.isValid a.id f.name then pure (c, c.lookup a f)
  else do
    match ← invoke f with
    | .error e => pure (c, .error (.failed e))
    | .ok r => pure (c.remember a f r, (c.remember a f r).lookup a f)

/-- A request without effects is `run`. -/
theorem runIn_pure [LawfulMonad m] (c : AnalysisCache ρ) (a : Analysis ε ρ α) (f : Function) :
    c.runIn (fun f => (pure (a.run f) : m _)) a f = pure (c.run a f) := by
  unfold runIn run
  by_cases hvalid : c.isValid a.id f.name
  · rw [if_pos hvalid, if_pos hvalid]
  · rw [if_neg hvalid, if_neg hvalid, pure_bind]
    cases a.run f <;> rfl

end Effects

/-- What one call makes of the cache. -/
def perform (c : AnalysisCache ρ) : CacheCall ε ρ → AnalysisCache ρ
  | .run a f => (c.run a f).1
  | .invalidate function => c.invalidate function
  | .clear => c.clear
  | .enableStatistics => c.enableStatistics

/-- One call, where running an analysis leaves a trace. -/
def performTraced (c : AnalysisCache ρ) :
    CacheCall ε ρ → StateM (List Invocation) (AnalysisCache ρ)
  | .run a f => Prod.fst <$> c.runIn a.runTraced a f
  | .invalidate function => pure (c.invalidate function)
  | .clear => pure c.clear
  | .enableStatistics => pure c.enableStatistics

/-- The cache that calls leave of an empty one. -/
def after (calls : List (CacheCall ε ρ)) : AnalysisCache ρ := calls.foldl perform {}

/-- The runs of analyses that calls lead to. -/
def invocations (c : AnalysisCache ρ) (calls : List (CacheCall ε ρ)) : List Invocation :=
  ((calls.foldlM performTraced c).run []).2

/-- Some call has succeeded under an analysis and a function name, and no call since has dropped the
name. -/
def Succeeded (calls : List (CacheCall ε ρ)) (key : AnalysisId × String) : Prop :=
  ∃ before α, ∃ (a : Analysis ε ρ α) (f : Function) (since : List (CacheCall ε ρ)),
    calls = before ++ .run a f :: since ∧ (a.id, f.name) = key
      ∧ ((after before).run a f).2.isOk ∧ ∀ call ∈ since, call.drops key.2 = false

/-- Analysis and function name determine the type of the result and the result, and a result that
is kept is read back. -/
structure Consistent (calls : List (CacheCall ε ρ)) : Prop where
  determined : ∀ {α β : Type} (a : Analysis ε ρ α) (b : Analysis ε ρ β) (f g : Function),
    .run a f ∈ calls → .run b g ∈ calls → a.id = b.id → f.name = g.name → a.answer f = b.answer g
  reads : ∀ {α : Type} (a : Analysis ε ρ α) (f : Function), .run a f ∈ calls →
    ∀ r, a.read? (a.store r) = some r

/-- What holds of a cache after calls, and of each call among them. -/
structure Accounted (calls : List (CacheCall ε ρ)) : Prop where
  /-- A request is answered with what the analysis gives. -/
  answered : ∀ {α : Type} before (a : Analysis ε ρ α) (f : Function) rest,
    calls = before ++ .run a f :: rest →
      ((after before).run a f).2 = (a.run f).mapError .failed
  /-- The analysis is run once, unless the same has succeeded and was not dropped. -/
  invoked : ∀ {α : Type} before (a : Analysis ε ρ α) (f : Function) rest,
    calls = before ++ .run a f :: rest →
      (¬ Succeeded before (a.id, f.name)
          ∧ (after before).invocations [.run a f] = [a.invocation f])
        ∨ (Succeeded before (a.id, f.name) ∧ (after before).invocations [.run a f] = [])
  /-- A run that fails changes nothing. -/
  failed : ∀ {α : Type} before (a : Analysis ε ρ α) (f : Function) rest e,
    calls = before ++ .run a f :: rest → a.run f = .error e →
      (after before).run a f = (after before, .error (.failed e))
  /-- Recorded are, in order, the runs that succeeded since that was first asked for. -/
  recorded : (after calls).runs =
    (((after (calls.takeWhile (!·.enables))).invocations (calls.dropWhile (!·.enables))).filter
      (·.succeeded)).map (·.record)
  /-- To drop a function drops the results under its name and no others. -/
  dropped : ∀ function id name, ((after calls).invalidate function).results.get? (id, name)
    = if name = function then none else (after calls).results.get? (id, name)

/-- To drop a name drops the results under that name. -/
theorem get?_invalidate (c : AnalysisCache ρ) (function : String) (key : AnalysisId × String) :
    (c.invalidate function).results.get? key
      = if key.2 = function then none else c.results.get? key := by
  unfold invalidate
  rw [OrderedMap.get?_filterKeys]
  by_cases h : key.2 = function <;> simp [h]

section Calls

variable {c : AnalysisCache ρ} {a : Analysis ε ρ α} {f : Function} {calls : List (CacheCall ε ρ)}
  {call : CacheCall ε ρ} {key : AnalysisId × String}

/-- The last call works on what the others left. -/
theorem after_concat (calls : List (CacheCall ε ρ)) (call : CacheCall ε ρ) :
    after (calls ++ [call]) = (after calls).perform call := by
  unfold after
  rw [List.foldl_append]
  rfl

/-- Earlier calls are consistent if all are. -/
theorem Consistent.of_append {rest : List (CacheCall ε ρ)} (h : Consistent (calls ++ rest)) :
    Consistent calls where
  determined a b f g ha hb :=
    h.determined a b f g (List.mem_append_left rest ha) (List.mem_append_left rest hb)
  reads a f ha := h.reads a f (List.mem_append_left rest ha)

/-! ### When an analysis is run -/

/-- A result that is there is looked up. -/
theorem run_of_valid (h : c.isValid a.id f.name = true) : c.run a f = (c, c.lookup a f) := by
  unfold run
  rw [if_pos h]

/-- Otherwise the analysis runs, and what it gives is kept. -/
theorem run_of_not_valid (h : c.isValid a.id f.name = false) :
    c.run a f = match a.run f with
      | .error e => (c, .error (.failed e))
      | .ok r => (c.remember a f r, (c.remember a f r).lookup a f) := by
  unfold run
  rw [if_neg (Bool.eq_false_iff.mp h)]
  cases a.run f <;> rfl

/-- With traces a request does what it does without, and leaves a trace exactly if nothing was
cached. -/
theorem runIn_traced (c : AnalysisCache ρ) (a : Analysis ε ρ α) (f : Function)
    (log : List Invocation) :
    (c.runIn a.runTraced a f).run log
      = (c.run a f, log ++ if c.isValid a.id f.name then [] else [a.invocation f]) := by
  unfold runIn
  cases hvalid : c.isValid a.id f.name with
  | true =>
    rw [run_of_valid hvalid, if_pos rfl, if_pos rfl, List.append_nil]
    rfl
  | false =>
    rw [run_of_not_valid hvalid, if_neg Bool.false_ne_true, if_neg Bool.false_ne_true]
    unfold Analysis.runTraced
    cases a.run f <;> rfl

/-- With traces a call does what it does without, and its own trace comes behind the others. -/
theorem performTraced_run (c : AnalysisCache ρ) (call : CacheCall ε ρ) (log : List Invocation) :
    (c.performTraced call).run log = (c.perform call, log ++ c.invocations [call]) := by
  have hsingle : c.invocations [call] = ((c.performTraced call).run []).2 := by
    unfold invocations
    rw [List.foldlM_cons]
    rfl
  rw [hsingle]
  cases call with
  | run a f =>
    have hrun (log : List Invocation) : (c.performTraced (.run a f)).run log
        = ((c.run a f).1, log ++ if c.isValid a.id f.name then [] else [a.invocation f]) :=
      congrArg (Prod.map Prod.fst id) (c.runIn_traced a f log)
    rw [hrun, hrun, List.nil_append]
    rfl
  | invalidate name => exact Prod.ext rfl (List.append_nil log).symm
  | clear => exact Prod.ext rfl (List.append_nil log).symm
  | enableStatistics => exact Prod.ext rfl (List.append_nil log).symm

/-- A request runs the analysis exactly if nothing was cached. -/
theorem invocations_run (c : AnalysisCache ρ) (a : Analysis ε ρ α) (f : Function) :
    c.invocations [.run a f] = if c.isValid a.id f.name then [] else [a.invocation f] :=
  congrArg Prod.snd (c.runIn_traced a f [])

/-- The trace of the first call stands in front of those of the others. -/
theorem foldlM_performTraced_cons (c : AnalysisCache ρ) (call : CacheCall ε ρ)
    (calls : List (CacheCall ε ρ)) (log : List Invocation) :
    ((call :: calls).foldlM performTraced c).run log
      = (calls.foldlM performTraced (c.perform call)).run (log ++ c.invocations [call]) := by
  rw [List.foldlM_cons, StateT.run_bind, performTraced_run]
  rfl

/-- The trace that calls leave does not depend on what was traced before. -/
theorem foldlM_performTraced_run (c : AnalysisCache ρ) (calls : List (CacheCall ε ρ))
    (log : List Invocation) : (calls.foldlM performTraced c).run log
      = (calls.foldl perform c, log ++ c.invocations calls) := by
  induction calls generalizing c log with
  | nil => exact Prod.ext rfl (List.append_nil log).symm
  | cons call calls ih =>
    have hall : c.invocations (call :: calls)
        = c.invocations [call] ++ (c.perform call).invocations calls := by
      rw [invocations, foldlM_performTraced_cons, ih, List.nil_append]
    rw [foldlM_performTraced_cons, ih, hall, List.append_assoc, List.foldl_cons]

/-- The calls run what the first runs, and then what the others run from there. -/
theorem invocations_cons (c : AnalysisCache ρ) (call : CacheCall ε ρ)
    (calls : List (CacheCall ε ρ)) :
    c.invocations (call :: calls) = c.invocations [call] ++ (c.perform call).invocations calls := by
  rw [invocations, foldlM_performTraced_cons, foldlM_performTraced_run, List.nil_append]

/-! ### What is recorded -/

/-- A request changes the cache as `run` does. -/
theorem perform_run (c : AnalysisCache ρ) (a : Analysis ε ρ α) (f : Function) :
    c.perform (.run a f) = (c.run a f).1 := rfl

/-- Runs are recorded from the first call on that asks for it. -/
theorem recordsRuns_perform (c : AnalysisCache ρ) (call : CacheCall ε ρ) :
    (c.perform call).recordsRuns = (c.recordsRuns || call.enables) := by
  cases call with
  | run a f =>
    rw [CacheCall.enables, Bool.or_false, perform_run]
    cases hvalid : c.isValid a.id f.name with
    | true => rw [run_of_valid hvalid]
    | false =>
      rw [run_of_not_valid hvalid]
      cases a.run f <;> rfl
  | invalidate name => exact (Bool.or_false _).symm
  | clear => exact (Bool.or_false _).symm
  | enableStatistics => exact (Bool.or_true _).symm

/-- A call records what it ran with success, if runs are recorded. -/
theorem runs_perform (c : AnalysisCache ρ) (call : CacheCall ε ρ) :
    (c.perform call).runs = c.runs
      ++ if c.recordsRuns then ((c.invocations [call]).filter (·.succeeded)).map (·.record)
        else [] := by
  cases call with
  | run a f =>
    rw [invocations_run, perform_run]
    cases hvalid : c.isValid a.id f.name with
    | true =>
      rw [run_of_valid hvalid]
      cases c.recordsRuns <;> exact (List.append_nil _).symm
    | false =>
      rw [run_of_not_valid hvalid]
      unfold Analysis.invocation
      cases a.run f with
      | error e => cases c.recordsRuns <;> exact (List.append_nil _).symm
      | ok r =>
        -- Only here a run took place that may be recorded.
        cases hrecords : c.recordsRuns <;> simp [remember, hrecords, Except.isOk, Except.toBool]
  | invalidate name => cases c.recordsRuns <;> exact (List.append_nil _).symm
  | clear => cases c.recordsRuns <;> exact (List.append_nil _).symm
  | enableStatistics => cases c.recordsRuns <;> exact (List.append_nil _).symm

/-- Once runs are recorded, those that succeed are. -/
theorem runs_of_recorded (h : c.recordsRuns = true) (calls : List (CacheCall ε ρ)) :
    (calls.foldl perform c).runs
      = c.runs ++ ((c.invocations calls).filter (·.succeeded)).map (·.record) := by
  induction calls generalizing c with
  | nil => exact (List.append_nil _).symm
  | cons call calls ih =>
    have hnext : (c.perform call).recordsRuns = true := by
      rw [recordsRuns_perform, h, Bool.true_or]
    rw [List.foldl_cons, ih hnext, runs_perform, if_pos h, invocations_cons c call calls,
      List.filter_append, List.map_append, List.append_assoc]

/-- Before runs are recorded, none is. -/
theorem not_recorded (h : c.recordsRuns = false) (hcalls : ∀ call ∈ calls, call.enables = false) :
    (calls.foldl perform c).runs = c.runs := by
  induction calls generalizing c with
  | nil => rfl
  | cons call calls ih =>
    obtain ⟨hcall, hcalls⟩ := List.forall_mem_cons.mp hcalls
    have hnext : (c.perform call).recordsRuns = false := by
      rw [recordsRuns_perform, h, hcall, Bool.or_false]
    rw [List.foldl_cons, ih hnext hcalls, runs_perform, h, if_neg Bool.false_ne_true,
      List.append_nil]

/-- All that is recorded are the runs with success from the first call on that asks for
recording. -/
theorem runs_after (calls : List (CacheCall ε ρ)) : (after calls).runs =
    (((after (calls.takeWhile (!·.enables))).invocations (calls.dropWhile (!·.enables))).filter
      (·.succeeded)).map (·.record) := by
  have hbefore : (after (calls.takeWhile (!·.enables))).runs = [] := by
    refine not_recorded rfl fun call hcall => ?_
    simpa using List.mem_takeWhile_imp hcall
  have hsplit : after calls = (calls.dropWhile (!·.enables)).foldl perform
      (after (calls.takeWhile (!·.enables))) := by
    unfold after
    rw [← List.foldl_append, List.takeWhile_append_dropWhile]
  rw [hsplit]
  generalize after (calls.takeWhile (!·.enables)) = c at hbefore
  cases hrest : calls.dropWhile (!·.enables) with
  | nil => exact hbefore
  | cons call rest =>
    -- The call that is met first is the one that has runs recorded.
    have henables : call.enables = true := by
      have hhead := List.head?_dropWhile_not (fun call : CacheCall ε ρ => !call.enables) calls
      simpa [hrest] using hhead
    have hrecords : (c.perform call).recordsRuns = true := by
      rw [recordsRuns_perform, henables, Bool.or_true]
    have hfirst : (c.perform call).runs = [] ∧ c.invocations [call] = [] := by
      cases call with
      | enableStatistics => exact ⟨hbefore, rfl⟩
      | run a f => cases henables
      | invalidate name => cases henables
      | clear => cases henables
    rw [List.foldl_cons, runs_of_recorded hrecords, hfirst.1, invocations_cons c call rest,
      hfirst.2, List.nil_append, List.nil_append]

/-! ### What has succeeded -/

/-- After one call more something has succeeded if that call has, or if it has succeeded before and
is not dropped now. -/
theorem succeeded_concat : Succeeded (calls ++ [call]) key ↔
    (∃ α, ∃ (a : Analysis ε ρ α) (f : Function),
        call = .run a f ∧ (a.id, f.name) = key ∧ ((after calls).run a f).2.isOk)
      ∨ call.drops key.2 = false ∧ Succeeded calls key := by
  constructor
  · rintro ⟨before, α, a, f, since, heq, hkey, hok, hsince⟩
    -- The call that succeeded is the last one, or the last one came after it.
    rcases since.eq_nil_or_concat' with rfl | ⟨since, last, rfl⟩
    · obtain ⟨rfl, hcall⟩ := List.append_inj' heq rfl
      exact .inl ⟨α, a, f, List.singleton_inj.mp hcall, hkey, hok⟩
    · rw [← List.cons_append, ← List.append_assoc] at heq
      obtain ⟨rfl, hcall⟩ := List.append_inj' heq rfl
      obtain rfl := List.singleton_inj.mp hcall
      rw [List.forall_mem_append, List.forall_mem_singleton] at hsince
      exact .inr ⟨hsince.2, before, α, a, f, since, rfl, hkey, hok, hsince.1⟩
  · rintro (⟨α, a, f, rfl, hkey, hok⟩ | ⟨hdrops, before, α, a, f, since, rfl, hkey, hok, hsince⟩)
    · exact ⟨calls, α, a, f, [], rfl, hkey, hok, List.forall_mem_nil _⟩
    · refine ⟨before, α, a, f, since ++ [call], by simp, hkey, hok, ?_⟩
      rw [List.forall_mem_append, List.forall_mem_singleton]
      exact ⟨hsince, hdrops⟩

/-- A request drops nothing. -/
theorem succeeded_concat_run : Succeeded (calls ++ [.run a f]) key ↔
    ((a.id, f.name) = key ∧ ((after calls).run a f).2.isOk) ∨ Succeeded calls key := by
  rw [succeeded_concat]
  constructor
  · rintro (⟨β, b, g, heq, hkey, hok⟩ | ⟨-, h⟩)
    · cases heq
      exact .inl ⟨hkey, hok⟩
    · exact .inr h
  · rintro (⟨hkey, hok⟩ | h)
    · exact .inl ⟨α, a, f, rfl, hkey, hok⟩
    · exact .inr ⟨rfl, h⟩

/-! ### What is cached -/

/-- The cache after calls has a result where some call has succeeded since the name was dropped, and
the result is what the analysis asked for gives. -/
structure Remembers (c : AnalysisCache ρ) (calls : List (CacheCall ε ρ)) : Prop where
  found : ∀ key v, c.results.get? key = some v → ∃ α, ∃ (a : Analysis ε ρ α) (f : Function),
    .run a f ∈ calls ∧ (a.id, f.name) = key ∧ (a.answer f).Keeps v
  known : ∀ key, (∃ v, c.results.get? key = some v) ↔ Succeeded calls key

/-- Something is cached exactly if it has succeeded. -/
theorem Remembers.isValid_iff (h : c.Remembers calls) (a : Analysis ε ρ α) (f : Function) :
    c.isValid a.id f.name = true ↔ Succeeded calls (a.id, f.name) := by
  rw [← h.known]
  unfold isValid
  rw [OrderedMap.contains_eq, Option.isSome_iff_exists]

/-- What is cached for a consistent call is what its analysis gives. -/
theorem Remembers.keeps (h : c.Remembers calls) (hc : Consistent (calls ++ [.run a f])) {v : ρ}
    (hv : c.results.get? (a.id, f.name) = some v) : (a.answer f).Keeps v := by
  obtain ⟨β, b, g, hmem, hkey, hkeeps⟩ := h.found _ v hv
  obtain ⟨hid, hname⟩ := Prod.mk.inj hkey
  rw [hc.determined a b f g (by simp) (List.mem_append_left _ hmem) hid.symm hname.symm]
  exact hkeeps

/-- A call finds a result, or runs the analysis. -/
theorem Remembers.run_cases (h : c.Remembers calls) (hc : Consistent (calls ++ [.run a f])) :
    (∃ r, Succeeded calls (a.id, f.name) ∧ a.run f = .ok r ∧ c.run a f = (c, .ok r))
      ∨ (∃ e, ¬ Succeeded calls (a.id, f.name) ∧ a.run f = .error e
          ∧ c.run a f = (c, .error (.failed e)))
      ∨ ∃ r, ¬ Succeeded calls (a.id, f.name) ∧ a.run f = .ok r
          ∧ c.run a f = (c.remember a f r, .ok r) := by
  have hreads := hc.reads a f (by simp)
  rw [← h.isValid_iff a f]
  cases hvalid : c.isValid a.id f.name with
  | true =>
    obtain ⟨v, hv⟩ := (h.known _).mpr ((h.isValid_iff a f).mp hvalid)
    obtain ⟨r, hr, rfl⟩ := h.keeps hc hv
    exact .inl ⟨r, rfl, hr, by rw [run_of_valid hvalid, lookup_of_get? hreads hv]⟩
  | false =>
    rw [run_of_not_valid hvalid]
    cases hr : a.run f with
    | error e => exact .inr (.inl ⟨e, Bool.false_ne_true, rfl, rfl⟩)
    | ok r =>
      refine .inr (.inr ⟨r, Bool.false_ne_true, rfl, Prod.ext rfl ?_⟩)
      exact lookup_of_get? hreads (OrderedMap.get?_insert_self ..)

/-- An empty cache after no calls. -/
theorem Remembers.empty : ({} : AnalysisCache ρ).Remembers ([] : List (CacheCall ε ρ)) where
  found _ _ h := nomatch h
  known key := by
    refine iff_of_false (fun ⟨v, h⟩ => nomatch h) ?_
    rintro ⟨before, α, a, f, since, heq, -⟩
    simp at heq

/-- A call that asks for no result keeps those it does not drop. -/
theorem Remembers.keep {c' : AnalysisCache ρ} (h : c.Remembers calls)
    (hcall : ∀ {α : Type} (a : Analysis ε ρ α) (f : Function), call ≠ .run a f)
    (hget : ∀ key, c'.results.get? key = if call.drops key.2 then none else c.results.get? key) :
    c'.Remembers (calls ++ [call]) where
  found key v hv := by
    rw [hget] at hv
    split at hv
    · cases hv
    · obtain ⟨α, a, f, hmem, hrest⟩ := h.found key v hv
      exact ⟨α, a, f, List.mem_append_left _ hmem, hrest⟩
  known key := by
    rw [hget, succeeded_concat]
    have hno : ¬ ∃ α, ∃ (a : Analysis ε ρ α) (f : Function),
        call = .run a f ∧ (a.id, f.name) = key ∧ ((after calls).run a f).2.isOk := by
      rintro ⟨α, a, f, heq, -⟩
      exact hcall a f heq
    cases call.drops key.2 with
    | true => simp [hno]
    | false => simpa [hno] using h.known key

/-- After a request, whichever way it is answered. -/
theorem Remembers.run (h : (after calls).Remembers calls)
    (hc : Consistent (calls ++ [.run a f])) :
    (after (calls ++ [.run a f])).Remembers (calls ++ [.run a f]) := by
  rw [after_concat, perform_run]
  -- What was cached is so for the calls before, and they are still among the calls.
  have hold {key : AnalysisId × String} {v : ρ} (hv : (after calls).results.get? key = some v) :
      ∃ β, ∃ (b : Analysis ε ρ β) (g : Function),
        .run b g ∈ calls ++ [.run a f] ∧ (b.id, g.name) = key ∧ (b.answer g).Keeps v := by
    obtain ⟨β, b, g, hmem, hrest⟩ := h.found key v hv
    exact ⟨β, b, g, List.mem_append_left _ hmem, hrest⟩
  rcases h.run_cases hc with ⟨r, hsucceeded, -, hrun⟩ | ⟨e, -, -, hrun⟩ | ⟨r, hnew, hr, hrun⟩
  · rw [hrun]
    refine ⟨fun key v hv => hold hv, fun key => ?_⟩
    rw [h.known, succeeded_concat_run]
    refine ⟨.inr, ?_⟩
    rintro (⟨rfl, -⟩ | h)
    · exact hsucceeded
    · exact h
  · rw [hrun]
    refine ⟨fun key v hv => hold hv, fun key => ?_⟩
    rw [h.known, succeeded_concat_run, hrun]
    simp [Except.isOk, Except.toBool]
  · rw [hrun]
    constructor
    case found =>
      intro key v hv
      by_cases hkey : key = (a.id, f.name)
      · have hself : v = a.store r := by
          rw [hkey] at hv
          exact Option.some.inj (hv.symm.trans (OrderedMap.get?_insert_self ..))
        exact ⟨α, a, f, by simp, hkey.symm, r, hr, hself⟩
      · exact hold ((OrderedMap.get?_insert_of_ne _ _ hkey).symm.trans hv)
    case known =>
      intro key
      rw [succeeded_concat_run, hrun, ← h.known, ← OrderedMap.mem_keys_iff,
        ← OrderedMap.mem_keys_iff]
      unfold remember
      rw [OrderedMap.mem_keys_insert]
      simp [Except.isOk, Except.toBool, eq_comm]

/-- After any consistent calls the cache remembers them. -/
theorem remembers_after (hc : Consistent calls) : (after calls).Remembers calls := by
  induction calls using List.reverseRecOn with
  | nil => exact .empty
  | append_singleton calls call ih =>
    have h := ih hc.of_append
    cases call with
    | run a f => exact h.run hc
    | invalidate name =>
      rw [after_concat]
      refine h.keep (fun _ _ => nofun) fun key => ?_
      refine (get?_invalidate (after calls) name key).trans (if_congr ?_ rfl rfl)
      rw [CacheCall.drops, beq_iff_eq]
      exact eq_comm
    | clear =>
      rw [after_concat]
      exact h.keep (fun _ _ => nofun) fun key => rfl
    | enableStatistics =>
      rw [after_concat]
      exact h.keep (fun _ _ => nofun) fun key => rfl

end Calls

/-- Where analysis and function name determine the result, a cache answers, runs analyses, fails,
records and forgets as it should, whatever was asked of it before. -/
theorem accounted_of_consistent {calls : List (CacheCall ε ρ)} (h : Consistent calls) :
    Accounted calls := by
  -- What comes before a call is consistent, so the cache remembers it, and so is the call itself.
  have hcases {α : Type} (before) (a : Analysis ε ρ α) (f : Function) (rest)
      (heq : calls = before ++ .run a f :: rest) := by
    have hcall : Consistent (before ++ [.run a f]) := by
      rw [heq, List.append_cons] at h
      exact h.of_append
    exact And.intro (remembers_after hcall.of_append) hcall
  constructor
  case answered =>
    intro α before a f rest heq
    obtain ⟨hremembers, hcall⟩ := hcases before a f rest heq
    rcases hremembers.run_cases hcall with ⟨r, -, hr, hrun⟩ | ⟨e, -, hr, hrun⟩ | ⟨r, -, hr, hrun⟩
    all_goals
      rw [hrun, hr]
      rfl
  case invoked =>
    intro α before a f rest heq
    obtain ⟨hremembers, -⟩ := hcases before a f rest heq
    rw [invocations_run, ← hremembers.isValid_iff a f]
    cases (after before).isValid a.id f.name with
    | true => exact .inr ⟨rfl, rfl⟩
    | false => exact .inl ⟨Bool.false_ne_true, rfl⟩
  case failed =>
    intro α before a f rest e heq he
    obtain ⟨hremembers, hcall⟩ := hcases before a f rest heq
    rcases hremembers.run_cases hcall with ⟨r, -, hr, -⟩ | ⟨e', -, he', hrun⟩ | ⟨r, -, hr, -⟩
    · cases he.symm.trans hr
    · cases he.symm.trans he'
      exact hrun
    · cases he.symm.trans hr
  case recorded => exact runs_after calls
  case dropped => exact fun function id name => get?_invalidate _ function (id, name)

/-! Two analyses with results of different types; one of them fails for functions without values. -/

/-- How many instructions a function has. -/
def instructionCount : Analysis String (Nat ⊕ String) Nat where
  id := .custom "count"
  name := "count"
  run f := .ok f.instructions.size
  store := .inl
  read? := Sum.getLeft?

/-- The name of the first value of a function. -/
def firstValueName : Analysis String (Nat ⊕ String) String where
  id := .custom "first value"
  name := "first value"
  run f := (f.values[0]?).elim (.error "no value") fun v => .ok v.name
  store := .inr
  read? := Sum.getRight?

/-- A function without values. -/
def withoutValue : Function := { name := "f" }

/-- A function with one value. -/
def withValue : Function := { name := "g", values := #[⟨"p", .argument, none⟩] }

/-- Two analyses called in turn, with a failure and an invalidation between them. -/
def twoAnalyses : List (CacheCall String (Nat ⊕ String)) := [
  .run instructionCount withoutValue,
  .enableStatistics,
  .run firstValueName withoutValue,
  .run firstValueName withValue,
  .run instructionCount withoutValue,
  .invalidate "f",
  .run firstValueName withValue,
  .run instructionCount withoutValue]

/-- The first count is not recorded, the failure and the two results that are found again are not
either. -/
theorem accounted_twoAnalyses : Consistent twoAnalyses ∧ Accounted twoAnalyses
    ∧ (after twoAnalyses).runs = [⟨"first value", "g"⟩, ⟨"count", "f"⟩] := by
  have hruns {α : Type} (a : Analysis String (Nat ⊕ String) α) (f : Function)
      (h : .run a f ∈ twoAnalyses) : (∀ r, a.read? (a.store r) = some r)
        ∧ a.answer f = if a.id = .custom "count" then instructionCount.answer withoutValue
          else if f.name = "f" then firstValueName.answer withoutValue
          else firstValueName.answer withValue := by
    simp only [twoAnalyses, List.mem_cons, List.not_mem_nil, or_false] at h
    rcases h with h | h | h | h | h | h | h | h <;> cases h <;> exact ⟨fun _ => rfl, rfl⟩
  have hconsistent : Consistent twoAnalyses := by
    refine ⟨fun a b f g ha hb hid hname => ?_, fun a f ha => (hruns a f ha).1⟩
    rw [(hruns a f ha).2, (hruns b g hb).2, hid, hname]
  exact ⟨hconsistent, accounted_of_consistent hconsistent, by decide +kernel⟩

end AnalysisCache

end Privatization
