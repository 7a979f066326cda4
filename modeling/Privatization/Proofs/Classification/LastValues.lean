import Privatization.Proofs.Alias.Cover
import Privatization.Proofs.Classification.Outcome
import Privatization.Proofs.Propagation.ClosedForm

/-!
# Last values

Memory whose last value is read after the loop, reported without a copy from before the loop, is
written by the loop byte for byte (`lastPrivate_written`). The memory is mostly not one the loop
names but one around it. Its verdict carries no copy only if neither the evidence for it nor that of
anything it stands for below called for one (`Outcome.covers`), and evidence that calls for none
passed the sweep over the written leaves.
-/

namespace Privatization

/-- Whether definitions write the memory at each of its pointers. -/
def ReachingDefs.Writes (defs : ReachingDefs) (e : Estimate) : Prop :=
  ∀ loc ∈ e.locations, defs.must.contains loc = true

/-- Every byte of the memory lies in an undivided part of it of which `p` holds. -/
def AliasTree.SpannedByLeaves (t : AliasTree) (m : EstimateId) (p : Estimate → Prop) : Prop :=
  ∃ e, t.estimate? m = some e ∧ ∀ b ∈ e.range, ∃ leaf part, t.isEstimateAncestor m leaf = true
    ∧ t.isLeaf leaf = true ∧ t.estimate? leaf = some part ∧ b ∈ part.range ∧ p part

/-- What holds of the parts may be weakened. -/
theorem AliasTree.SpannedByLeaves.imp {t : AliasTree} {m : EstimateId} {p q : Estimate → Prop}
    (h : t.SpannedByLeaves m p) (hpq : ∀ part, p part → q part) : t.SpannedByLeaves m q := by
  obtain ⟨e, he, hbytes⟩ := h
  refine ⟨e, he, fun b hb => ?_⟩
  obtain ⟨leaf, part, hbelow, hleaf, hpart, hbyte, hp⟩ := hbytes b hb
  exact ⟨leaf, part, hbelow, hleaf, hpart, hbyte, hpq part hp⟩

namespace Scope

variable {s : Scope} {l : Ledger} {n : AliasNodeId} {nt : NodeTrait} {mt : MemoryTrait}
  {m em : EstimateId} {e : Estimate}

/-! ## Written leaves -/

/-- The test for written memory asks for all locations of it. -/
theorem writes_iff {defs : ReachingDefs} (he : s.tree.estimate? em = some e) :
    s.writes defs em = true ↔ defs.Writes e := by
  unfold writes
  rw [he, Option.all_some]
  exact List.all_eq_true

/-- Memory that the sweep finds covered is spanned by leaves that pass the test of the sweep. -/
theorem spannedByLeaves_of_covers {last : Bool}
    (h : s.tree.covers m (s.definedLeaves last m) = true) :
    s.tree.SpannedByLeaves m fun part =>
      (last = false ∧ s.latch.Writes part) ∨ s.exit.Writes part := by
  obtain ⟨e, he⟩ := AliasTree.exists_estimate_of_covers h
  have hm : m.index < s.tree.estimates.size := (Array.getElem?_eq_some_iff.mp he).1
  refine ⟨e, he, fun b hb => ?_⟩
  obtain ⟨leaf, hleaf, -, part, hpart, hbyte⟩ := ((AliasTree.covers_iff he).mp h).2 b hb
  obtain ⟨hbelow, hwritten⟩ := List.mem_filter.mp hleaf
  rw [Bool.and_eq_true] at hwritten
  refine ⟨leaf, part, ((AliasTree.mem_estimateDescendants hm).mp hbelow).2, hwritten.1, hpart,
    hbyte, ?_⟩
  have hfor := hwritten.2
  unfold writtenFor at hfor
  cases last with
  | true => exact .inr ((writes_iff hpart).mp hfor)
  | false =>
    rw [if_neg Bool.false_ne_true, Bool.or_eq_true, writes_iff hpart, writes_iff hpart] at hfor
    exact hfor.imp_left fun h => ⟨rfl, h⟩

/-! ## Reports without a copy -/

/-- A verdict under which a last value survives without a copy is the evidence, none of which was
copied on the way. -/
theorem verdict_of_not_firstPrivate
    (hlast : (s.verdict l n m).categories.meets {.lastPrivate, .secondToLastPrivate} = true)
    (hfirst : (s.verdict l n m).categories.has .firstPrivate = false) :
    s.copies l n m = false ∧ s.verdict l n m = s.evidence l n m := by
  unfold verdict at hlast hfirst ⊢
  cases hcopies : s.copies l n m with
  | true =>
    rw [hcopies] at hlast hfirst
    cases (Trait.has_firstPrivate_of_readonly hlast).symm.trans hfirst
  | false => exact ⟨rfl, Trait.meet_noAccess _⟩

/-- If nothing was copied in for a head, its own evidence called for no copy. -/
theorem callsForCopy_of_not_copies (hm : m ∈ s.heads l n) (h : s.copies l n m = false) :
    s.callsForCopy l n m = false := by
  rw [copies_eq hm, Bool.or_eq_false_iff] at h
  exact h.2

/-- If no evidence on any way up to a node calls for a copy, none is made there. -/
theorem copies_of_no_calls (h : ∀ em ∈ l.explicit.keys, ∀ d ∈ s.tree.nodePath (s.tree.home em) n,
    ∀ m ∈ s.heads l d, s.callsForCopy l d m = false) : s.copies l n m = false := by
  unfold copies
  rw [List.any_eq_false]
  intro em hkey hcopied
  rw [Bool.and_eq_true] at hcopied
  obtain ⟨d, hd, hat⟩ := List.any_eq_true.mp hcopied.2
  obtain ⟨m', hm', hcalls⟩ := List.any_eq_true.mp hat
  rw [h em hkey d hd m' hm', Bool.and_false] at hcalls
  cases hcalls

/-- Memory reported with a last value and without a copy is spanned by its written leaves. -/
theorem Outcome.covers (o : s.Outcome l n nt) (hmt : mt ∈ nt.memories)
    (hlast : mt.categories.meets {.lastPrivate, .secondToLastPrivate} = true)
    (hfirst : mt.categories.has .firstPrivate = false) :
    s.tree.covers mt.memory (s.definedLeaves (mt.categories.has .lastPrivate) mt.memory)
      = true := by
  have hm := (o.heads mt.memory).mp (List.mem_map_of_mem hmt)
  -- What is reported is the verdict, the mark for explicit accesses apart, or a forced dependence.
  rcases o.categories mt hmt with ⟨hverdict, -⟩ | ⟨-, c, hc⟩
  · have hhas (a : Category) (ha : a ≠ .explicitAccess) :
        (s.verdict l n mt.memory).categories.has a = mt.categories.has a := by
      rw [← hverdict, FlagSet.has_sdiff_explicit _ ha]
    have hlast' : (s.verdict l n mt.memory).categories.meets
        {.lastPrivate, .secondToLastPrivate} = true := by
      obtain ⟨a, ha, hin⟩ := FlagSet.meets_iff.mp hlast
      refine FlagSet.meets_iff.mpr ⟨a, (hhas a ?_).trans ha, hin⟩
      rintro rfl
      exact absurd hin (by decide)
    rw [← hhas .firstPrivate (by decide)] at hfirst
    obtain ⟨hcopies, heq⟩ := verdict_of_not_firstPrivate hlast' hfirst
    have hcalls := callsForCopy_of_not_copies hm hcopies
    unfold callsForCopy needsCopyIn at hcalls
    rw [← heq, hfirst, hlast', hhas .lastPrivate (by decide)] at hcalls
    simpa using hcalls
  · -- A dependence forced by coverage has no last value.
    obtain ⟨a, ha, hin⟩ := FlagSet.meets_iff.mp hlast
    have hother : Categories.markers.has a = false ∧ Categories.dependency.has a = false := by
      revert hin
      cases a <;> decide
    rw [hc, FlagSet.has_toDependency, hother.1, hother.2, Bool.and_false] at ha
    cases ha

end Scope

variable {settings : Settings} {f : Function} {t : AliasTree} {loop : Loop}
  {depends : DependenceOracle} {modRef : ModRefOracle} {result : LoopResult}

/-- Where a classified loop reports memory last private and not first private, every byte of the
memory lies in an undivided part that is written on every path to the exit; where it reports it
private up to the last iteration but one and not first private, in one that is written on every path
to the latch or on every path to the exit. -/
theorem lastPrivate_written (grown : t.Grown)
    (h : classifyLoop settings f t loop depends modRef = .ok result) :
    ∃ latch exit, f.reach.get? loop.latch = some latch ∧ f.reach.get? loop.exit = some exit ∧
      ∀ n nt mt, result.traits.get? n = some nt → mt ∈ nt.memories →
        mt.categories.has .firstPrivate = false →
          (mt.categories.has .lastPrivate = true →
            t.SpannedByLeaves mt.memory exit.Writes)
          ∧ (mt.categories.has .secondToLastPrivate = true →
            t.SpannedByLeaves mt.memory fun part => latch.Writes part ∨ exit.Writes part) := by
  obtain ⟨s, d, l, st, rfl⟩ := classifyLoop_eq_ok.mp h
  obtain ⟨-, rfl, -, -, -⟩ := Scope.ofLoop_eq_ok st.scope
  obtain ⟨hlatch, hexit⟩ := Scope.reach_ofLoop st.scope
  refine ⟨s.latch, s.exit, hlatch, hexit, fun n nt mt hnt hmt hfirst => ?_⟩
  have o := (Scope.finish_outcome grown.wellFormed (Scope.noted_resolve st.ledger) settings n).2
    nt hnt
  constructor
  · intro hlast
    have hmeets : mt.categories.meets {.lastPrivate, .secondToLastPrivate} = true :=
      FlagSet.meets_iff.mpr ⟨.lastPrivate, hlast, by decide⟩
    have hcovers := o.covers hmt hmeets hfirst
    rw [hlast] at hcovers
    -- A value of the last iteration has to be written by the exit, so the latch does not count.
    exact (Scope.spannedByLeaves_of_covers hcovers).imp fun part h => h.resolve_left (by simp)
  · intro hlast
    have hmeets : mt.categories.meets {.lastPrivate, .secondToLastPrivate} = true :=
      FlagSet.meets_iff.mpr ⟨.secondToLastPrivate, hlast, by decide⟩
    exact (Scope.spannedByLeaves_of_covers (o.covers hmt hmeets hfirst)).imp
      fun part h => h.imp_left And.right

/-! The halves again, both recorded as written over and read after the loop, and both written on
every path to the exit. -/

/-- The function, with both halves written at the latch and at the exit. -/
def writtenHalves : Function :=
  { halvesFunction ∅ (.ofList halves) with
    reach := (OrderedMap.empty.insert ⟨0⟩ ⟨∅, ∅⟩).insert ⟨1⟩ ⟨.ofList halves, .ofList halves⟩ }

/-- Each store overwrites itself in every iteration. -/
def ownAnswer : DependenceOracle := fun src dst _ =>
  if src = dst then some ⟨.output, [.all], []⟩ else none

/-- The classification of the loop. -/
def writtenResult : Except ClassifyError LoopResult :=
  classifyLoop {} writtenHalves halvesTree twoBlocks ownAnswer writtenHalves.modRef

/-- What is known of the loop. -/
def writtenScope : Scope :=
  { halvesScope ∅ (.ofList halves) with
    function := writtenHalves, exit := ⟨.ofList halves, .ofList halves⟩ }

/-- The halves span the object. -/
theorem covers_halvesTree : halvesTree.covers ⟨0⟩ [⟨1⟩, ⟨2⟩] = true := by
  have hobject : halvesTree.estimate? ⟨0⟩ = some ⟨⟨0⟩, [], some 8, 0, none, ⟨1⟩⟩ := by
    decide +kernel
  have hlo : halvesTree.estimate? ⟨1⟩ = some ⟨⟨1⟩, [], some 4, 0, some ⟨0⟩, ⟨1⟩⟩ := by
    decide +kernel
  have hhi : halvesTree.estimate? ⟨2⟩ = some ⟨⟨2⟩, [], some 4, 4, some ⟨0⟩, ⟨1⟩⟩ := by
    decide +kernel
  refine (AliasTree.covers_iff hobject).mpr ⟨⟨⟨1⟩, by decide, by decide +kernel, _, hlo⟩, ?_⟩
  intro b hb
  by_cases hlow : b < 4
  · exact ⟨⟨1⟩, by decide, by decide +kernel, _, hlo, Nat.zero_le b, hlow⟩
  · exact ⟨⟨2⟩, by decide, by decide +kernel, _, hhi, Nat.le_of_not_lt hlow, hb.2⟩

/-- So a last value of the object needs no copy from before the loop. -/
theorem needsCopyIn_writtenScope : writtenScope.needsCopyIn ⟨0⟩ {.lastPrivate} = false := by
  have hleaves : writtenScope.definedLeaves true ⟨0⟩ = [⟨1⟩, ⟨2⟩] := by decide +kernel
  have hcovers : writtenScope.tree.covers ⟨0⟩ [⟨1⟩, ⟨2⟩] = true := covers_halvesTree
  unfold Scope.needsCopyIn
  rw [show ({.lastPrivate} : Categories).has .lastPrivate = true by decide, hleaves, hcovers]
  decide

/-- At both nodes of the tree the object is the one head, needed by nobody before the loop. -/
def ReportsLast (l : Ledger) : Prop :=
  ∀ n ∈ [AliasTree.top, ⟨1⟩], writtenScope.heads l n = [⟨0⟩, ⟨0⟩]
    ∧ (writtenScope.evidence l n ⟨0⟩).categories = {.lastPrivate}

instance (l : Ledger) : Decidable (ReportsLast l) :=
  inferInstanceAs (Decidable (∀ n ∈ _, _))

/-- None is made on the way from the halves to the root. -/
theorem copies_writtenScope {l : Ledger} (hkeys : l.explicit.keys = [⟨1⟩, ⟨2⟩])
    (hreports : ReportsLast l) : writtenScope.copies l AliasTree.top ⟨0⟩ = false := by
  have hway : ∀ em ∈ [(⟨1⟩ : EstimateId), ⟨2⟩],
      writtenScope.tree.nodePath (writtenScope.tree.home em) AliasTree.top
        = [⟨1⟩, AliasTree.top] := by
    decide +kernel
  refine Scope.copies_of_no_calls fun em hem n hn m hm => ?_
  rw [hkeys] at hem
  rw [hway em hem] at hn
  obtain ⟨hheads, hevidence⟩ := hreports n (by simpa [or_comm] using hn)
  rw [hheads] at hm
  obtain rfl : m = ⟨0⟩ := by simpa using hm
  unfold Scope.callsForCopy
  rw [hevidence]
  exact needsCopyIn_writtenScope

/-- Reported as the object they are the halves of, they are last private, and the object is written
byte for byte. -/
theorem lastPrivate_written_halves :
    ∃ result nt mt exit, halvesTree.Grown ∧ writtenResult = .ok result
      ∧ result.traits.get? AliasTree.top = some nt ∧ mt ∈ nt.memories ∧ mt.memory = ⟨0⟩
      ∧ mt.categories.has .lastPrivate = true ∧ mt.categories.has .firstPrivate = false
      ∧ writtenHalves.reach.get? twoBlocks.exit = some exit
      ∧ halvesTree.SpannedByLeaves mt.memory exit.Writes := by
  have grown : halvesTree.Grown := AliasTree.grown_ofAdditions _
  obtain ⟨result, hresult⟩ := exists_of_isOk (x := writtenResult) (by decide +kernel)
  obtain ⟨latch, exit, -, hexit, hwritten⟩ := lastPrivate_written grown hresult
  obtain ⟨s, d, l, st, rfl⟩ := classifyLoop_eq_ok.mp hresult
  have hscope : Scope.ofLoop writtenHalves halvesTree twoBlocks = .ok writtenScope := rfl
  obtain rfl : s = writtenScope := Except.ok.inj (st.scope.symm.trans hscope)
  -- The ledger can be computed, and with it the evidence at the two nodes of the tree.
  have heval := st.eval (fun l => (l.explicit.keys, decide (ReportsLast l)))
    (a := ([⟨1⟩, ⟨2⟩], true)) (by decide +kernel)
  obtain ⟨hkeys, hdecided⟩ := Prod.mk.inj heval
  have hreports : ReportsLast l := of_decide_eq_true hdecided
  obtain ⟨hheads, hevidence⟩ := hreports AliasTree.top List.mem_cons_self
  obtain ⟨nt, mt, hnt, hmt, hmemory, hcategories⟩ :=
    Scope.exists_report_top (s := writtenScope) grown.wellFormed (Scope.noted_resolve st.ledger) {}
      (m := ⟨0⟩) (by rw [hheads]; exact List.mem_cons_self)
  -- No copy is made on the way to the root, so the evidence is what is reported.
  rw [Scope.verdict, copies_writtenScope hkeys hreports,
    show Trait.copyIn false = Trait.noAccess from rfl, Trait.meet_noAccess, hevidence]
    at hcategories
  have hhas (a : Category) (ha : a ≠ .explicitAccess) :
      mt.categories.has a = ({.lastPrivate} : Categories).has a := by
    rw [← hcategories, FlagSet.has_sdiff_explicit _ ha]
  have hlast : mt.categories.has .lastPrivate = true := (hhas _ (by decide)).trans (by decide)
  have hfirst : mt.categories.has .firstPrivate = false := (hhas _ (by decide)).trans (by decide)
  exact ⟨_, nt, mt, exit, grown, hresult, hnt, hmt, hmemory, hlast, hfirst, hexit,
    (hwritten _ nt mt hnt hmt hfirst).1 hlast⟩

end Privatization
