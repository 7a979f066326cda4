import Privatization.Proofs.Guarded.Report

/-!
# Runs on what is read from a text

Classification and reports look numbers up everywhere: of values, instructions, loops, nodes,
memory, entries. They climb along parents and forwarding links, and they traverse what lies below a
node. For a function that is read from a text all of this is safe (`ends_in_range`): the loader only
lets numbers in that were declared (`Facts.inRange_of_read`), and the rest is handed on from there.
-/

namespace Privatization.Guarded

/-- A function that is read from a text is classified, and what is found is presented, without a
number out of range and without a walk that does not end: there is a result, which can be presented
in every way, or an error to report. The engine gives the same. This is the program as a release
build runs it: what a debug build asserts on the way to an error is left out, and there such an
error ends the run. -/
theorem ends_in_range {text : String} {fs : List Function} (h : Facts.read text = .ok fs)
    {f : Function} (hf : f ∈ fs) (settings : Settings) :
    (∃ r, classify settings f = .ok r ∧ Privatization.classify settings f = .ok r
      ∧ ∀ p, present f p r = .ok (Report.present f p r))
    ∨ ∃ e, classify settings f = .error (.reported e)
      ∧ Privatization.classify settings f = .error e := by
  have k : f.InRange := Facts.inRange_of_read h f hf
  have hmirrors := classify_mirrors k settings
  generalize classify settings f = x, Privatization.classify settings f = y at hmirrors
  cases hmirrors with
  | error e => exact .inr ⟨e, rfl, rfl⟩
  | @ok r r' hr =>
    obtain ⟨rfl, hreported⟩ := hr
    exact .inl ⟨r, rfl, rfl, present_eq k hreported⟩

/-! A loop that writes the first half of an object under another name and reads the whole. -/

/-- The facts of the function with that loop, in which the half is given an alias node
of its own. -/
def objectAndHalf : String :=
  "function f\nvalue x argument\nvalue p other\nalias a\nalias b parent=a\n"
    ++ "estimate whole node=a ptrs=x size=8\nestimate half node=b ptrs=p size=4 parent=whole\n"
    ++ "inst i store p:4 block=1\ninst j load x:8 block=1\n"
    ++ "loop l header=1 blocks=1 latch=0 exit=1\n"
    ++ "access l explicit=[p:4, x:8] def=p:4 use=x:8\nlive l\nreach 0\nreach 1\n"

/-- What is printed for the function, each memory under the categories reported for it. -/
def objectAndHalfListing : String :=
  "=== f ===\n l\n  shared:\n   <x, 8>\n  flow:\n   <p, 4>\n  anti:\n   <p, 4>\n"
    ++ "  output:\n   <p, 4>\n  explicit access:\n   <p, 4>\n   <x, 8>\n"

/-- The facts are read, the loop is classified and the result is printed, with every number in
range. -/
theorem ends_in_range_objectAndHalf : ∃ fs f r, Facts.read objectAndHalf = .ok fs ∧ f ∈ fs
    ∧ classify {} f = .ok r ∧ present f {} r = .ok objectAndHalfListing := by
  have hlisting : ((Facts.read objectAndHalf).toOption.bind fun fs => fs.head?.bind fun f =>
      (Privatization.classify {} f).toOption.map (Report.present f {}))
      = some objectAndHalfListing := by
    decide +kernel
  -- The run is taken apart again, to the facts, the function and its result.
  obtain ⟨fs, hread, hlisting⟩ := Option.bind_eq_some_iff.mp hlisting
  have hfs : Facts.read objectAndHalf = .ok fs := by
    cases h : Facts.read objectAndHalf with
    | error e => rw [h] at hread; cases hread
    | ok fs' => rw [h] at hread; exact congrArg Except.ok (Option.some.inj hread)
  obtain ⟨f, hf, hlisting⟩ := Option.bind_eq_some_iff.mp hlisting
  have hmem : f ∈ fs := List.mem_of_mem_head? hf
  obtain ⟨r, hr, hpresent⟩ := Option.map_eq_some_iff.mp hlisting
  -- The two runs end alike, so the result that was evaluated is the one whose numbers are in range.
  rcases ends_in_range hfs hmem {} with ⟨r', hok, hr', hall⟩ | ⟨e, -, he⟩
  · rw [hr'] at hr
    obtain rfl : r' = r := Option.some.inj hr
    exact ⟨fs, f, r', hfs, hmem, hok, hpresent ▸ hall {}⟩
  · rw [he] at hr
    cases hr

end Privatization.Guarded
