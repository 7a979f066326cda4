import Privatization.CommandLine.Run

/-!
# Functions of one name

Results are cached under the name of a function, and nothing keeps two functions of a text from
having one name. A run through the cache gives every function the result of the first function with
its name (`AnalysisCache.runAll_eq`). So the command line, which uses one cache for a whole text,
and a run of each function on its own agree exactly as far as functions of one name have one result
(`classifyAll_eq_classifyEach_iff`), and always where names differ.
-/

namespace Privatization

/-- The first function with a name. -/
def findNamed? (fs : List Function) (name : String) : Option Function :=
  fs.find? (·.name == name)

/-- The first function of a name is before a function, that function, or after it. -/
theorem findNamed?_append (before after : List Function) (f : Function) (name : String) :
    findNamed? (before ++ f :: after) name
      = (findNamed? before name).or (if f.name = name then some f else findNamed? after name) := by
  unfold findNamed?
  rw [List.find?_append, List.find?_cons]
  by_cases hname : f.name = name
  · rw [if_pos hname, beq_iff_eq.mpr hname]
  · rw [if_neg hname, beq_eq_false_iff_ne.mpr hname]

/-- The first function with the name of `f`, which is `f` where no other has it. -/
def firstNamed (fs : List Function) (f : Function) : Function := (findNamed? fs f.name).getD f

/-- For the first one, only what stands before a function matters. -/
theorem firstNamed_append (before after : List Function) (f : Function) :
    firstNamed (before ++ f :: after) f = firstNamed before f := by
  unfold firstNamed
  rw [findNamed?_append, if_pos rfl]
  cases findNamed? before f.name <;> rfl

/-- The first function of a name that occurs is in the list. -/
theorem firstNamed_mem {fs : List Function} {f : Function} (h : f ∈ fs) : firstNamed fs f ∈ fs := by
  unfold firstNamed
  cases hfind : findNamed? fs f.name with
  | none => exact h
  | some g => exact List.mem_of_find?_eq_some hfind

/-- Where names differ, every function is the first of its name. -/
theorem firstNamed_of_nodup {fs : List Function} {f : Function}
    (hnames : (fs.map (·.name)).Nodup) (h : f ∈ fs) : firstNamed fs f = f := by
  obtain ⟨before, after, rfl⟩ := List.append_of_mem h
  rw [firstNamed_append]
  unfold firstNamed
  -- No function before `f` has its name.
  rw [List.map_append, List.nodup_append] at hnames
  have hnew : findNamed? before f.name = none := by
    rw [findNamed?, List.find?_eq_none]
    intro g hg hname
    exact hnames.2.2 g.name (List.mem_map_of_mem hg) f.name (by simp) (beq_iff_eq.mp hname)
  rw [hnew]
  rfl

namespace AnalysisCache

variable {ε ρ α : Type} {c : AnalysisCache ρ} {a : Analysis ε ρ α} {done : List Function}
  {f : Function}

/-- Through the cache went the functions `done`: the cache has the result of the first function of
every name that occurs among them. -/
structure Holds (c : AnalysisCache ρ) (a : Analysis ε ρ α) (done : List Function) : Prop where
  absent : ∀ name, findNamed? done name = none → c.results.get? (a.id, name) = none
  present : ∀ name g, findNamed? done name = some g →
    ∃ r, a.run g = .ok r ∧ c.results.get? (a.id, name) = some (a.store r)

/-- Nothing went through an empty cache. -/
theorem holds_empty (a : Analysis ε ρ α) : ({} : AnalysisCache ρ).Holds a [] :=
  ⟨fun _ _ => rfl, fun _ _ h => nomatch h⟩

/-- A result that is kept is found. -/
theorem lookup_of_get? (hread : ∀ r, a.read? (a.store r) = some r) {r : α}
    (h : c.results.get? (a.id, f.name) = some (a.store r)) : c.lookup a f = .ok r := by
  unfold lookup get?
  rw [h, Option.bind_some, hread]

/-- A function whose name is known leaves the cache as it is. -/
theorem Holds.of_known {g : Function} (h : c.Holds a done) (hg : findNamed? done f.name = some g) :
    c.Holds a (done ++ [f]) := by
  -- For no name is `f` the first function.
  have hsame (name : String) : findNamed? (done ++ [f]) name = findNamed? done name := by
    rw [findNamed?_append]
    by_cases hname : f.name = name
    · rw [if_pos hname, ← hname, hg]
      rfl
    · rw [if_neg hname]
      exact Option.or_none
  exact ⟨fun name hname => h.absent name (hsame name ▸ hname),
    fun name g hname => h.present name g (hsame name ▸ hname)⟩

/-- A function with a new name leaves its result there. -/
theorem Holds.of_new {r : α} {c' : AnalysisCache ρ} (h : c.Holds a done)
    (hnew : findNamed? done f.name = none) (hr : a.run f = .ok r)
    (hc' : c'.results = c.results.insert (a.id, f.name) (a.store r)) :
    c'.Holds a (done ++ [f]) := by
  have hself : findNamed? (done ++ [f]) f.name = some f := by
    rw [findNamed?_append, hnew, if_pos rfl]
    rfl
  have hother (name : String) (hne : f.name ≠ name) :
      findNamed? (done ++ [f]) name = findNamed? done name
        ∧ c'.results.get? (a.id, name) = c.results.get? (a.id, name) := by
    constructor
    · rw [findNamed?_append, if_neg hne]
      exact Option.or_none
    · -- The key of the new result has the name in it.
      rw [hc']
      exact OrderedMap.get?_insert_of_ne _ _ fun he => hne (Prod.mk.inj he).2.symm
  -- Under its own name the new result is found, under every other name what was found before.
  constructor
  · intro name hname
    by_cases hne : f.name = name
    · rw [← hne, hself] at hname
      cases hname
    · rw [(hother name hne).2]
      exact h.absent name ((hother name hne).1 ▸ hname)
  · intro name g hname
    by_cases hne : f.name = name
    · rw [← hne, hself] at hname
      cases hname
      refine ⟨r, hr, ?_⟩
      rw [hc', ← hne]
      exact OrderedMap.get?_insert_self ..
    · rw [(hother name hne).2]
      exact h.present name g ((hother name hne).1 ▸ hname)

/-- The next function gets what the analysis gives for the first function of its name. -/
theorem run_eq (hread : ∀ r, a.read? (a.store r) = some r) (h : c.Holds a done) (f : Function) :
    match a.run (firstNamed done f) with
    | .error e => c.run a f = (c, .error (.failed e))
    | .ok r => ∃ c', c.run a f = (c', .ok r) ∧ c'.Holds a (done ++ [f]) := by
  unfold firstNamed run
  rw [isValid, OrderedMap.contains_eq]
  cases hf : findNamed? done f.name with
  -- A known name: the result is that of the first function, and nothing is run.
  | some g =>
    obtain ⟨r, hr, hget⟩ := h.present f.name g hf
    rw [Option.getD_some, hr, hget, lookup_of_get? hread hget]
    exact ⟨c, rfl, h.of_known hf⟩
  | none =>
    rw [Option.getD_none, h.absent f.name hf]
    cases hr : a.run f with
    | error e => rfl
    | ok r =>
      refine ⟨_, Prod.ext rfl ?_, h.of_new hf hr rfl⟩
      exact lookup_of_get? hread (OrderedMap.get?_insert_self ..)

/-- What a function gets among the functions `fs`: what the analysis gives for the first function of
its name. -/
def shared (a : Analysis ε ρ α) (fs : List Function) (f : Function) :
    Except (String × CacheError ε) (Function × α) :=
  match a.run (firstNamed fs f) with
  | .error e => .error (f.name, .failed e)
  | .ok r => .ok (f, r)

/-- A run through a cache gives every function what the analysis gives for the first function of its
name, done before or still to come. -/
theorem runAll_eq_of_holds (hread : ∀ r, a.read? (a.store r) = some r) {fs : List Function}
    (h : c.Holds a done) : c.runAll a fs = fs.mapM (shared a (done ++ fs)) := by
  -- Functions move from `fs` to `done`, so the list the first ones are sought in stays the same.
  induction fs generalizing c done with
  | nil => rfl
  | cons f fs ih =>
    have hrun := run_eq hread h f
    have hshared : shared a (done ++ f :: fs) f = match a.run (firstNamed done f) with
        | .error e => .error (f.name, .failed e)
        | .ok r => .ok (f, r) := by
      unfold shared
      rw [firstNamed_append]
    rw [List.mapM_cons, hshared]
    unfold runAll
    cases hfirst : a.run (firstNamed done f) with
    | error e =>
      rw [hfirst] at hrun
      rw [hrun]
      rfl
    | ok r =>
      rw [hfirst] at hrun
      obtain ⟨c', hc', hholds⟩ := hrun
      rw [hc']
      dsimp only
      rw [ih hholds, List.append_assoc, List.singleton_append]
      cases fs.mapM (shared a (done ++ f :: fs)) <;> rfl

/-- From an empty cache, that is the first function of the list. -/
theorem runAll_eq (hread : ∀ r, a.read? (a.store r) = some r) (fs : List Function) :
    ({} : AnalysisCache ρ).runAll a fs = fs.mapM (shared a fs) :=
  runAll_eq_of_holds hread (holds_empty a)

end AnalysisCache

/-! ## The command line -/

/-- The classification of functions, each on its own. -/
def classifyEach (settings : Settings) (fs : List Function) :
    Except ClassifyError (List (Function × FunctionResult)) :=
  fs.mapM fun f => (classify settings f).map (f, ·)

/-- Leaving out what the error was, a list succeeds step by step. -/
theorem toOption_mapM {α β ε : Type} (g : α → Except ε β) (as : List α) :
    (as.mapM g).toOption = as.mapM fun a => (g a).toOption := by
  induction as with
  | nil => rfl
  | cons a as ih =>
    rw [List.mapM_cons, List.mapM_cons, ← ih]
    cases g a with
    | error e => rfl
    | ok b => cases as.mapM g <;> rfl

/-- A list of steps fails if one of them does. -/
theorem mapM_eq_none_iff {α β : Type} {g : α → Option β} {as : List α} :
    as.mapM g = none ↔ ∃ a ∈ as, g a = none := by
  induction as with
  | nil => simp
  | cons a as ih =>
    rw [List.mapM_cons]
    simp only [List.mem_cons, or_and_right, exists_or, exists_eq_left, ← ih]
    cases g a with
    | none => simp
    | some b => cases as.mapM g <;> simp

/-- Steps that agree on a list give the same list. -/
theorem mapM_congr {α β : Type} {g h : α → Option β} {as : List α}
    (heq : ∀ a ∈ as, g a = h a) : as.mapM g = as.mapM h := by
  induction as with
  | nil => rfl
  | cons a as ih =>
    obtain ⟨hfirst, hrest⟩ := List.forall_mem_cons.mp heq
    rw [List.mapM_cons, List.mapM_cons, hfirst, ih hrest]

/-- Runs that give the same list, and do give one, agree step by step. -/
theorem eq_of_mapM_eq {α β : Type} {g h : α → Option β} {as : List α} {bs : List β}
    (hg : as.mapM g = some bs) (hh : as.mapM h = some bs) : ∀ a ∈ as, g a = h a := by
  induction as generalizing bs with
  | nil => exact fun a ha => absurd ha List.not_mem_nil
  | cons a as ih =>
    rw [List.mapM_cons] at hg hh
    obtain ⟨b, hb, hg⟩ := Option.bind_eq_some_iff.mp hg
    obtain ⟨bs₁, hbs₁, hg⟩ := Option.bind_eq_some_iff.mp hg
    obtain ⟨b', hb', hh⟩ := Option.bind_eq_some_iff.mp hh
    obtain ⟨bs₂, hbs₂, hh⟩ := Option.bind_eq_some_iff.mp hh
    obtain ⟨rfl, rfl⟩ := List.cons.inj (Option.some.inj (hg.trans hh.symm))
    exact List.forall_mem_cons.mpr ⟨hb.trans hb'.symm, ih hbs₁ hbs₂⟩

namespace CommandLine

variable {settings : Settings} {fs : List Function}

/-- The command line is such a run. -/
theorem classifyAll_eq (settings : Settings) (fs : List Function) :
    classifyAll settings fs
      = fs.mapM (AnalysisCache.shared (classification settings id some : Analysis _ _ _) fs) :=
  AnalysisCache.runAll_eq (fun _ => rfl) fs

/-- What it gives, without the errors. -/
theorem toOption_classifyAll (settings : Settings) (fs : List Function) :
    (classifyAll settings fs).toOption
      = fs.mapM fun f => (classify settings (firstNamed fs f)).toOption.map (f, ·) := by
  rw [classifyAll_eq, toOption_mapM]
  congr 1
  funext f
  unfold AnalysisCache.shared
  rw [show (classification settings id some : Analysis ClassifyError FunctionResult _).run
    (firstNamed fs f) = classify settings (firstNamed fs f) from rfl]
  cases classify settings (firstNamed fs f) <;> rfl

/-- What the functions give on their own, without the errors. -/
theorem toOption_classifyEach (settings : Settings) (fs : List Function) :
    (classifyEach settings fs).toOption
      = fs.mapM fun f => (classify settings f).toOption.map (f, ·) := by
  unfold classifyEach
  rw [toOption_mapM]
  congr 1
  funext f
  cases classify settings f <;> rfl

theorem toOption_eq_none {r : Except ClassifyError FunctionResult} (h : r.isOk = false) :
    r.toOption = none := by
  cases r with
  | error e => rfl
  | ok r => cases h

/-- Where the first function of some name fails, nothing is classified either way. -/
theorem toOption_eq_none_of_failed
    (h : ∃ f ∈ fs, (classify settings (firstNamed fs f)).isOk = false) :
    (classifyAll settings fs).toOption = none ∧ (classifyEach settings fs).toOption = none := by
  obtain ⟨f, hf, hfailed⟩ := h
  have hnone := toOption_eq_none hfailed
  rw [toOption_classifyAll, toOption_classifyEach]
  constructor
  · exact mapM_eq_none_iff.mpr ⟨f, hf, by rw [hnone]; rfl⟩
  · -- The function that fails is one of the list itself.
    exact mapM_eq_none_iff.mpr ⟨firstNamed fs f, firstNamed_mem hf, by rw [hnone]; rfl⟩

/-- Where every function has the result of the first of its name, both agree. -/
theorem toOption_congr (h : ∀ f ∈ fs, classify settings f = classify settings (firstNamed fs f)) :
    (classifyAll settings fs).toOption = (classifyEach settings fs).toOption := by
  rw [toOption_classifyAll, toOption_classifyEach]
  exact mapM_congr fun f hf => by rw [h f hf]

/-- The command line and a run of each function on its own give the same classifications, or both
fail, exactly in two cases: the first function of some name fails, which ends either; or every
function has the result of the first function of its name. -/
theorem classifyAll_eq_classifyEach_iff (settings : Settings) (fs : List Function) :
    (classifyAll settings fs).toOption = (classifyEach settings fs).toOption ↔
      (∃ f ∈ fs, (classify settings (firstNamed fs f)).isOk = false)
        ∨ ∀ f ∈ fs, classify settings f = classify settings (firstNamed fs f) := by
  constructor
  · intro heq
    refine Classical.or_iff_not_imp_left.mpr fun hnone f hf => ?_
    -- The command line gives a list, and each function of the other run its part of it.
    have hok (g : Function) (hg : g ∈ fs) : ∃ r, classify settings (firstNamed fs g) = .ok r := by
      cases hr : classify settings (firstNamed fs g) with
      | error e => exact absurd ⟨g, hg, by rw [hr]; rfl⟩ hnone
      | ok r => exact ⟨r, rfl⟩
    rw [toOption_classifyAll, toOption_classifyEach] at heq
    have hall : fs.mapM (fun f => (classify settings (firstNamed fs f)).toOption.map (f, ·))
        ≠ none := by
      intro hnone
      obtain ⟨g, hg, hgnone⟩ := mapM_eq_none_iff.mp hnone
      obtain ⟨r, hr⟩ := hok g hg
      rw [hr] at hgnone
      cases hgnone
    obtain ⟨results, hresults⟩ := Option.ne_none_iff_exists'.mp hall
    have hstep := eq_of_mapM_eq hresults (heq.symm.trans hresults) f hf
    obtain ⟨r, hr⟩ := hok f hf
    rw [hr] at hstep ⊢
    cases hown : classify settings f with
    | error e =>
      rw [hown] at hstep
      cases hstep
    | ok r' =>
      rw [hown] at hstep
      cases hstep
      rfl
  · rintro (hfailed | hsame)
    · obtain ⟨hall, heach⟩ := toOption_eq_none_of_failed hfailed
      exact hall.trans heach.symm
    · exact toOption_congr hsame

/-- Functions of different names are classified as each on its own. -/
theorem classifyAll_eq_classifyEach (settings : Settings) {fs : List Function}
    (hnames : (fs.map (·.name)).Nodup) :
    (classifyAll settings fs).toOption = (classifyEach settings fs).toOption :=
  toOption_congr fun f hf => by rw [firstNamed_of_nodup hnames hf]

/-- Two functions of one name, of which the second has a loop. -/
def namesakes : String :=
  "function f\nfunction f\nalias n\nloop l header=1 blocks=[1] latch=0 exit=1\naccess l\n"
    ++ "live l []\nreach 0\nreach 1\n"

/-- How many loops each function has a result for. -/
def loopCounts (results : List (Function × FunctionResult)) : List Nat :=
  results.map fun (_, r) => r.loops.size

/-- The command line gives the second function the result of the first, without its loop. -/
theorem classifyAll_ne_classifyEach_namesakes :
    ∃ fs, Facts.read namesakes = .ok fs
      ∧ (classifyAll {} fs).toOption.map loopCounts = some [0, 0]
      ∧ (classifyEach {} fs).toOption.map loopCounts = some [0, 1]
      ∧ (classifyAll {} fs).toOption ≠ (classifyEach {} fs).toOption := by
  have heval : (Facts.read namesakes).toOption.map (fun fs =>
      ((classifyAll {} fs).toOption.map loopCounts, (classifyEach {} fs).toOption.map loopCounts))
      = some (some [0, 0], some [0, 1]) := by
    decide +kernel
  cases hread : Facts.read namesakes with
  | error e =>
    rw [hread] at heval
    cases heval
  | ok fs =>
    rw [hread] at heval
    obtain ⟨hall, heach⟩ := Prod.mk.inj (Option.some.inj heval)
    refine ⟨fs, rfl, hall, heach, fun heq => ?_⟩
    rw [heq, heach] at hall
    cases hall

end CommandLine

end Privatization
