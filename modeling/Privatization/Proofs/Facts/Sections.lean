import Privatization.Facts.Loader
import Privatization.Proofs.Collection.Folds

/-!
# Functions are read one by one

A list of statements falls into sections, one for each `function` statement with the statements up
to the next one. Loading is reading each section on its own (`load_eq_mapM`), so what is read for a
function does not depend on the functions around it, and lists that meet where a function begins can
be read apart (`load_append`). Inside a section a statement that is refused ends the reading, and
what stands behind it does not matter (`load_of_refused`).
-/

namespace Privatization.Facts

variable {s : Statement} {ss : List Statement}

/-- A `function` statement and the statements that belong to it. -/
structure Section where
  opening : Statement
  body : List Statement

/-- The statements before the next `function` statement. -/
def untilFunction (ss : List Statement) : List Statement := ss.takeWhile (·.keyword ≠ "function")

/-- The sections of a list. Statements before the first `function` statement belong to none. -/
def sections : List Statement → List Section
  | [] => []
  | s :: ss => if s.keyword = "function" then ⟨s, untilFunction ss⟩ :: sections ss else sections ss

/-- The list is empty or begins with a `function` statement. -/
def Opens (ss : List Statement) : Prop := ∀ s ∈ ss.head?, s.keyword = "function"

instance (ss : List Statement) : Decidable (Opens ss) := by
  unfold Opens
  infer_instance

/-- The draft after statements inside its function, or the first that is refused. -/
def Draft.run (b : Draft) (body : List Statement) : Except FactsError Draft :=
  body.foldlM (fun b s => (b.step s).mapError (.refused s.line)) b

/-- The loader after statements, or the first that is refused. -/
def Loader.run (l : Loader) (ss : List Statement) : Except FactsError Loader :=
  ss.foldlM (fun l s => (Loader.step l s).mapError (.refused s.line)) l

/-- The function of a section. -/
def Section.load (x : Section) : Except FactsError Function := do
  let name ← (x.opening.nameAt 0 "function").mapError (.refused x.opening.line)
  let b ← (Draft.new name).run x.body
  return b.function

/-- A function without usable name is refused with its opening statement. -/
theorem Section.load_of_error {e : StatementError} (h : s.nameAt 0 "function" = .error e)
    (body : List Statement) : Section.load ⟨s, body⟩ = .error (.refused s.line e) := by
  unfold Section.load
  rw [h]
  rfl

/-- With a name, a section gives the draft that its statements leave. -/
theorem Section.load_of_ok {name : String} (h : s.nameAt 0 "function" = .ok name)
    (body : List Statement) :
    Section.load ⟨s, body⟩ = ((Draft.new name).run body).map (·.function) := by
  unfold Section.load
  rw [h]
  show ((Draft.new name).run body >>= fun b => .ok b.function) = _
  cases (Draft.new name).run body <;> rfl

/-! ## Sections -/

/-- A `function` statement ends the statements of the function before it. -/
theorem untilFunction_cons_of_function (h : s.keyword = "function") (ss : List Statement) :
    untilFunction (s :: ss) = [] := by
  simp [untilFunction, h]

/-- Any other statement belongs to the function before it. -/
theorem untilFunction_cons_of_ne (h : s.keyword ≠ "function") (ss : List Statement) :
    untilFunction (s :: ss) = s :: untilFunction ss := by
  simp [untilFunction, h]

/-- A `function` statement opens a section. -/
theorem sections_cons_of_function (h : s.keyword = "function") (ss : List Statement) :
    sections (s :: ss) = ⟨s, untilFunction ss⟩ :: sections ss := if_pos h

/-- Any other statement in front of a list leaves its sections. -/
theorem sections_cons_of_ne (h : s.keyword ≠ "function") (ss : List Statement) :
    sections (s :: ss) = sections ss := if_neg h

/-- What a list that begins with a function holds belongs to no function before it. -/
theorem untilFunction_append (ss : List Statement) {others : List Statement} (h : Opens others) :
    untilFunction (ss ++ others) = untilFunction ss := by
  induction ss with
  | nil =>
    cases others with
    | nil => rfl
    | cons s others => exact untilFunction_cons_of_function (h s rfl) others
  | cons s ss ih =>
    by_cases hs : s.keyword = "function"
    · rw [List.cons_append, untilFunction_cons_of_function hs, untilFunction_cons_of_function hs]
    · rw [List.cons_append, untilFunction_cons_of_ne hs, untilFunction_cons_of_ne hs, ih]

/-- The sections of both lists follow one another. -/
theorem sections_append (ss : List Statement) {others : List Statement} (h : Opens others) :
    sections (ss ++ others) = sections ss ++ sections others := by
  induction ss with
  | nil => rfl
  | cons s ss ih =>
    by_cases hs : s.keyword = "function"
    · rw [List.cons_append, sections_cons_of_function hs, sections_cons_of_function hs,
        untilFunction_append ss h, ih, List.cons_append]
    · rw [List.cons_append, sections_cons_of_ne hs, sections_cons_of_ne hs, ih]

/-! ## Loading -/

/-- A `function` statement finishes the function under construction and opens the next. -/
theorem Loader.step_of_function (l : Loader) (h : s.keyword = "function") :
    l.step s = (s.nameAt 0 "function").map fun name =>
      { finished := l.functions, current := some (.new name) } := if_pos h

/-- Any other statement goes to the function under construction. -/
theorem Loader.step_of_ne (finished : List Function) (b : Draft) (h : s.keyword ≠ "function") :
    Loader.step ⟨finished, some b⟩ s = (b.step s).map fun b => ⟨finished, some b⟩ := if_neg h

/-- With a function under construction, its statements are read first and then the other sections.
What is finished stays as it is. -/
theorem functions_run (finished : List Function) (b : Draft) (ss : List Statement) :
    (Loader.run ⟨finished, some b⟩ ss).map Loader.functions
      = (do
        let b ← b.run (untilFunction ss)
        let fs ← (sections ss).mapM Section.load
        return finished ++ b.function :: fs) := by
  induction ss generalizing finished b with
  | nil => rfl
  | cons s ss ih =>
    unfold Loader.run
    rw [List.foldlM_cons]
    -- Either the statement opens the next section, or it is one more of this one.
    by_cases hs : s.keyword = "function"
    · rw [untilFunction_cons_of_function hs, sections_cons_of_function hs, List.mapM_cons,
        Loader.step_of_function _ hs]
      cases hname : s.nameAt 0 "function" with
      | error e =>
        rw [Section.load_of_error hname]
        rfl
      | ok name =>
        -- The function so far is finished, and the next one begins.
        rw [Section.load_of_ok hname]
        refine (ih (finished ++ [b.function]) (.new name)).trans ?_
        cases (Draft.new name).run (untilFunction ss) with
        | error e => rfl
        | ok b' =>
          cases (sections ss).mapM Section.load with
          | error e => rfl
          | ok fs =>
            exact congrArg Except.ok (List.append_assoc finished [b.function] (b'.function :: fs))
    · rw [untilFunction_cons_of_ne hs, sections_cons_of_ne hs, Loader.step_of_ne finished b hs]
      unfold Draft.run
      rw [List.foldlM_cons]
      cases b.step s with
      | error e => rfl
      | ok b' => exact ih finished b'

/-- A statement in front of the first function is refused. -/
theorem load_of_outside (h : s.keyword ≠ "function") (ss : List Statement) :
    load (s :: ss) = .error (.refused s.line (.outsideFunction s.keyword)) := by
  unfold load
  rw [List.foldlM_cons]
  unfold Loader.step
  rw [if_neg h]
  rfl

/-- Each section is read on its own. -/
theorem load_eq_mapM (h : Opens ss) : load ss = (sections ss).mapM Section.load := by
  cases ss with
  | nil => rfl
  | cons s ss =>
    have hs := h s rfl
    unfold load
    rw [List.foldlM_cons, Loader.step_of_function _ hs, sections_cons_of_function hs,
      List.mapM_cons]
    cases hname : s.nameAt 0 "function" with
    | error e =>
      rw [Section.load_of_error hname]
      rfl
    | ok name =>
      rw [Section.load_of_ok hname]
      refine (functions_run [] (.new name) ss).trans ?_
      cases (Draft.new name).run (untilFunction ss) <;> rfl

/-- Lists that meet where a function begins are read one after the other: the functions of both
together, or the error of the first that is refused. -/
theorem load_append (ss : List Statement) {others : List Statement} (h : Opens others) :
    load (ss ++ others) = (do
      let fs ← load ss
      let gs ← load others
      return fs ++ gs) := by
  by_cases hss : Opens ss
  · -- If the first list does not begin with a function, its first statement is refused either way.
    have hboth : Opens (ss ++ others) := by
      cases ss with
      | nil => exact h
      | cons s ss => exact hss
    rw [load_eq_mapM hboth, sections_append ss h, List.mapM_append, ← load_eq_mapM hss,
      ← load_eq_mapM h]
  · cases ss with
    | nil => exact absurd (fun _ hs => nomatch hs) hss
    | cons s ss =>
      have hs : s.keyword ≠ "function" := fun hs => hss fun s' hs' => by
        obtain rfl := Option.some.inj hs'
        exact hs
      rw [List.cons_append, load_of_outside hs, load_of_outside hs]
      rfl

/-- A function with one alias node besides the root, called `n`. -/
def withNode (name : String) (line : Nat) : List Statement := [
  ⟨"function", line, [.name name], []⟩, ⟨"alias", line + 1, [.name "n"], []⟩]

/-- Two functions may both declare an alias node `n`, one may not declare it twice. -/
theorem load_append_sameNode : Opens (withNode "g" 3)
    ∧ (∃ f g, load (withNode "f" 1) = .ok [f] ∧ load (withNode "g" 3) = .ok [g]
      ∧ load (withNode "f" 1 ++ withNode "g" 3) = .ok [f, g])
    ∧ load (withNode "f" 1 ++ (withNode "g" 3).drop 1)
      = .error (.refused 4 (.declaredTwice .aliasNode "n")) := by
  have hopens : Opens (withNode "g" 3) := by decide
  refine ⟨hopens, ⟨_, _, rfl, rfl, ?_⟩, rfl⟩
  rw [load_append (withNode "f" 1) hopens]
  rfl

/-! ## A statement that is refused -/

/-- The function that `earlier` ends in has the statements `front` so far. -/
def Underway (earlier front : List Statement) : Prop :=
  ∃ before opening, earlier = before ++ opening :: front ∧ opening.keyword = "function"
    ∧ ∀ t ∈ front, t.keyword ≠ "function"

/-- Statements of a function go on into the list behind them. -/
theorem untilFunction_append_of_ne (h : ∀ t ∈ ss, t.keyword ≠ "function")
    (others : List Statement) : untilFunction (ss ++ others) = ss ++ untilFunction others := by
  induction ss with
  | nil => rfl
  | cons s ss ih =>
    obtain ⟨hs, hss⟩ := List.forall_mem_cons.mp h
    rw [List.cons_append, untilFunction_cons_of_ne hs, ih hss, List.cons_append]

/-- A function statement inside a list splits its sections. -/
theorem sections_append_section (before : List Statement) {opening : Statement}
    (h : opening.keyword = "function") (rest : List Statement) :
    sections (before ++ opening :: rest)
      = sections before ++ ⟨opening, untilFunction rest⟩ :: sections rest := by
  have hopens : Opens (opening :: rest) := by
    rintro _ ⟨⟩
    exact h
  rw [sections_append before hopens, sections_cons_of_function h]

/-- The statements of a function so far and one more are those of a section. -/
theorem exists_section_of_underway {earlier front : List Statement} (h : Underway earlier front)
    (hs : s.keyword ≠ "function") : ∃ x ∈ sections (earlier ++ [s]), x.body = front ++ [s] := by
  obtain ⟨before, opening, rfl, hopening, hfront⟩ := h
  refine ⟨⟨opening, front ++ [s]⟩, ?_, rfl⟩
  rw [List.append_assoc, List.cons_append, sections_append_section before hopening,
    untilFunction_append_of_ne hfront, untilFunction_cons_of_ne hs]
  exact List.mem_append_right _ List.mem_cons_self

/-- The loader reads one list after the other. -/
theorem Loader.run_append (l : Loader) (ss others : List Statement) :
    l.run (ss ++ others) = l.run ss >>= fun l => l.run others := List.foldlM_append

/-- A loader reads the first statement and then the others. -/
theorem Loader.run_cons (l : Loader) (s : Statement) (ss : List Statement) :
    l.run (s :: ss) = (l.step s).mapError (.refused s.line) >>= fun l => l.run ss :=
  List.foldlM_cons

/-- Statements inside a function change nothing but the function. -/
theorem Loader.run_of_ne (finished : List Function) (b : Draft)
    (h : ∀ t ∈ ss, t.keyword ≠ "function") :
    Loader.run ⟨finished, some b⟩ ss = (b.run ss).map fun b => ⟨finished, some b⟩ := by
  induction ss generalizing b with
  | nil => rfl
  | cons s ss ih =>
    obtain ⟨hs, hss⟩ := List.forall_mem_cons.mp h
    rw [Loader.run_cons, Loader.step_of_ne finished b hs]
    unfold Draft.run
    rw [List.foldlM_cons]
    cases b.step s with
    | error e => rfl
    | ok b' => exact ih b' hss

/-- With a function underway, the loader holds the draft of its statements so far. -/
theorem exists_draft_of_underway {earlier front : List Statement} {l : Loader}
    (h : Underway earlier front) (hl : Loader.run {} earlier = .ok l) :
    ∃ finished name b, l = ⟨finished, some b⟩ ∧ (Draft.new name).run front = .ok b := by
  obtain ⟨before, opening, rfl, hopening, hfront⟩ := h
  rw [Loader.run_append] at hl
  obtain ⟨l₁, -, hl⟩ := bind_eq_ok hl
  rw [Loader.run_cons, Loader.step_of_function l₁ hopening] at hl
  cases hname : opening.nameAt 0 "function" with
  | error e =>
    rw [hname] at hl
    cases hl
  | ok name =>
    rw [hname] at hl
    have hrun : Loader.run ⟨l₁.functions, some (.new name)⟩ front = .ok l := hl
    rw [Loader.run_of_ne _ _ hfront] at hrun
    obtain ⟨b, hb, rfl⟩ := map_eq_ok hrun
    exact ⟨_, name, b, rfl, hb⟩

/-- Loading passes through the state in front of any statement. -/
theorem load_append_cons (earlier : List Statement) (s : Statement) (after : List Statement) :
    load (earlier ++ s :: after) = (Loader.run {} earlier >>= fun l =>
      (l.step s).mapError (.refused s.line) >>= fun l => l.run after).map Loader.functions := by
  simp only [← Loader.run_cons, ← Loader.run_append]
  rfl

/-- A statement that is not accepted behind others is refused, whatever follows, unless one of the
others is refused. -/
theorem exists_refusal {earlier : List Statement} (h : ∀ fs, load (earlier ++ [s]) ≠ .ok fs) :
    ∃ e, ∀ after, load (earlier ++ s :: after)
      = load earlier >>= fun _ => .error (.refused s.line e) := by
  have hload : load earlier = (Loader.run {} earlier).map Loader.functions := rfl
  simp only [load_append_cons, hload] at h ⊢
  cases hrun : Loader.run {} earlier with
  | error e => exact ⟨.missingFlowNode, fun after => rfl⟩
  | ok l =>
    rw [hrun] at h
    cases hstep : l.step s with
    | error e =>
      refine ⟨e, fun after => ?_⟩
      show Except.map _ ((l.step s).mapError _ >>= _) = _
      rw [hstep]
      rfl
    | ok l' =>
      refine absurd ?_ (h l'.functions)
      show Except.map _ ((l.step s).mapError _ >>= _) = _
      rw [hstep]
      rfl

/-- Loading fails at a statement with the error that the function under construction gives. -/
theorem load_of_refused {earlier front : List Statement} (h : Underway earlier front)
    (hs : s.keyword ≠ "function") {e : StatementError}
    (hrefused : ∀ name b, (Draft.new name).run front = .ok b → b.step s = .error e)
    (after : List Statement) :
    load (earlier ++ s :: after) = load earlier >>= fun _ => .error (.refused s.line e) := by
  have hload : load earlier = (Loader.run {} earlier).map Loader.functions := rfl
  rw [load_append_cons, hload]
  cases hrun : Loader.run {} earlier with
  | error e => rfl
  | ok l =>
    obtain ⟨finished, name, b, rfl, hb⟩ := exists_draft_of_underway h hrun
    show Except.map _ ((Loader.step ⟨finished, some b⟩ s).mapError _ >>= _) = _
    rw [Loader.step_of_ne finished b hs, hrefused name b hb]
    rfl

end Privatization.Facts
