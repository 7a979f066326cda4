import Privatization.Proofs.Classification.Outcome
import Privatization.Proofs.Dependence.Merging
import Privatization.Proofs.Propagation.ClosedForm

/-!
# The records that are reported

A memory is reported with one record, merged from those of its pieces (`DependenceMap.pieces`). A
collection records nothing but sound records (`sound_of_collect`), so it does not matter in which
order the pieces are merged, nor how they are grouped (`dependenceOf_eq_some_iff`). With the laws of
merging this is `merging_aggregates`.
-/

namespace Privatization

/-- The records of the pieces of a memory, its own among them. -/
def DependenceMap.pieces (d : DependenceMap) (t : AliasTree) (em : EstimateId) :
    List DependenceRecord :=
  (d.toList.filter fun p => t.isEstimateAncestor em p.1).map Prod.snd

/-- The dependences of a loop as its classification collects them. -/
def DependenceSource.ofLoop (settings : Settings) (f : Function) (t : AliasTree) (loop : Loop)
    (depends : DependenceOracle) (modRef : ModRefOracle) : DependenceSource where
  function := f
  tree := t
  loop
  depends
  modRef
  ignoreLoopIndependent := settings.ignoreLoopIndependent

/-- A collection keeps no distance beside an unknown one. -/
theorem DependenceSource.sound_of_collect {s : DependenceSource} {d : DependenceMap}
    (h : s.collect = .ok d) {em : EstimateId} {r : DependenceRecord} (hr : d.get? em = some r) :
    r.Sound := by
  obtain ⟨os, hrecord, hmem⟩ := get?_collect h em
  rw [hrecord] at hr
  obtain rfl := DependenceRecord.eq_of_ofOccurrences? hr
  apply DependenceRecord.sound_foldl_add
  intro o ho
  exact ((hmem o).mp ho).distance_eq_none

/-- The record of a memory is made of those of its pieces, in whatever way. -/
theorem Ledger.dependenceOf_eq_some_iff {l : Ledger} {t : AliasTree} {em : EstimateId}
    {r : DependenceRecord} (h : ∀ piece ∈ l.dependences.pieces t em, piece.Sound) :
    l.dependenceOf t em = some r ↔ Merges (l.dependences.pieces t em) r := by
  rw [merges_iff h]
  unfold dependenceOf DependenceMap.pieces
  generalize l.dependences.toList.filter (fun p => t.isEstimateAncestor em p.1) = pieces
  cases pieces with
  | nil => exact ⟨fun h => (by cases h), fun h => absurd rfl h.1⟩
  | cons p pieces =>
    have hne : (p :: pieces).map Prod.snd ≠ [] := List.cons_ne_nil _ _
    rw [and_iff_right hne, List.foldl_map]
    exact Option.some_inj.trans eq_comm

/-- On records that keep no distance beside an unknown one and no details of a kind that was not
recorded, merging is associative, commutative and idempotent, with the empty record as its unit, and
gives such records again. Where no update is flagged and has a distance all the same, merging the
records of two runs of updates gives the record of one run after the other. A classified loop
reports for every memory what comes of merging the collected records of its pieces in any order and
any grouping, and nothing if there are none. -/
theorem merging_aggregates :
    (∅ : DependenceRecord).Sound
      ∧ (∀ r s t : DependenceRecord, r.Sound → s.Sound → t.Sound →
        (r.merge s).Sound ∧ (r.merge s).merge t = r.merge (s.merge t) ∧ r.merge s = s.merge r
          ∧ r.merge r = r ∧ r.merge ∅ = r ∧ (∅ : DependenceRecord).merge r = r)
      ∧ (∀ us vs : List Occurrence, (∀ o ∈ us ++ vs, o.flagged = true → o.distance = none) →
        (us.foldl DependenceRecord.add ∅).merge (vs.foldl DependenceRecord.add ∅)
          = (us ++ vs).foldl DependenceRecord.add ∅)
      ∧ ∀ (settings : Settings) (f : Function) (t : AliasTree) (loop : Loop)
        (depends : DependenceOracle) (modRef : ModRefOracle) (result : LoopResult),
        t.Grown → classifyLoop settings f t loop depends modRef = .ok result →
          ∃ d, (DependenceSource.ofLoop settings f t loop depends modRef).collect = .ok d
            ∧ ∀ n nt, result.traits.get? n = some nt → ∀ mt ∈ nt.memories, ∀ r,
              mt.dependence = some r ↔ Merges (d.pieces t mt.memory) r := by
  refine ⟨.empty, fun r s t hr hs _ => ?_, fun us vs h => DependenceRecord.merge_foldl_add h, ?_⟩
  · exact ⟨hr.merge hs, DependenceRecord.merge_assoc r s t, DependenceRecord.merge_comm r s,
      hr.merge_self, hr.merge_empty, hr.empty_merge⟩
  · intro settings f t loop depends modRef result grown h
    obtain ⟨s, d, l, st, rfl⟩ := classifyLoop_eq_ok.mp h
    obtain ⟨rfl, rfl, rfl, -, -⟩ := Scope.ofLoop_eq_ok st.scope
    refine ⟨d, st.dependences, fun n nt hnt mt hmt r => ?_⟩
    have noted := Scope.noted_resolve st.ledger
    have outcome := (Scope.finish_outcome grown.wellFormed noted settings n).2 nt hnt
    -- The pieces are records of the collection, which are sound.
    have hsound : ∀ piece ∈ l.dependences.pieces s.tree mt.memory, piece.Sound := by
      intro piece hpiece
      obtain ⟨⟨em, r⟩, hp, rfl⟩ := List.mem_map.mp hpiece
      have hmem := (List.mem_filter.mp hp).1
      rw [noted.dependences] at hmem
      exact DependenceSource.sound_of_collect st.dependences (OrderedMap.mem_toList_iff.mp hmem)
    rw [outcome.dependence mt hmt, Ledger.dependenceOf_eq_some_iff hsound, noted.dependences]

/-! The halves once more. Each is overwritten by a later iteration, the lower one by the next and
the upper one by the next but one. -/

def halvesAnswer : DependenceOracle := fun src dst _ =>
  if src = dst then some ⟨.output, [.lt], [some (.constant (src.index + 1))]⟩ else none

def overwrittenAfter (n : Int) : Occurrence := ⟨{.output}, {.loadStore}, some (.constant n)⟩

/-- The record of the half that is overwritten after so many iterations. -/
def halfRecord (n : Int) : DependenceRecord := [overwrittenAfter n].foldl DependenceRecord.add ∅

/-- The record of the object, made of what its halves say. -/
def wholeRecord : DependenceRecord :=
  [overwrittenAfter 1, overwrittenAfter 2].foldl DependenceRecord.add ∅

def overwrittenHalvesResult : Except ClassifyError LoopResult :=
  classifyLoop {} (halvesFunction ∅ ∅) halvesTree twoBlocks halvesAnswer (halvesFunction ∅ ∅).modRef

/-- The object is reported with both distances, whichever half is merged first. -/
theorem merging_aggregates_halves :
    (halfRecord 1).Sound ∧ (halfRecord 2).Sound
      ∧ (halfRecord 2).merge (halfRecord 1) = (halfRecord 1).merge (halfRecord 2)
      ∧ (∀ o ∈ [overwrittenAfter 1] ++ [overwrittenAfter 2], o.flagged = true → o.distance = none)
      ∧ (halfRecord 1).merge (halfRecord 2) = wholeRecord
      ∧ ∃ result nt mt, halvesTree.Grown ∧ overwrittenHalvesResult = .ok result
        ∧ result.traits.get? AliasTree.top = some nt ∧ mt ∈ nt.memories ∧ mt.memory = ⟨0⟩
        ∧ mt.dependence = some wholeRecord := by
  obtain ⟨-, hlaws, hupdates, hreported⟩ := merging_aggregates
  have hflagged : ∀ o ∈ [overwrittenAfter 1] ++ [overwrittenAfter 2],
      o.flagged = true → o.distance = none := by
    decide
  have hlow : (halfRecord 1).Sound :=
    DependenceRecord.sound_foldl_add fun o ho => hflagged o (List.mem_append_left _ ho)
  have hhigh : (halfRecord 2).Sound :=
    DependenceRecord.sound_foldl_add fun o ho => hflagged o (List.mem_append_right _ ho)
  have hswap : (halfRecord 2).merge (halfRecord 1) = (halfRecord 1).merge (halfRecord 2) :=
    (hlaws _ _ _ hhigh hlow hlow).2.2.1
  have hwhole : (halfRecord 1).merge (halfRecord 2) = wholeRecord := hupdates _ _ hflagged
  have grown : halvesTree.Grown := AliasTree.grown_ofAdditions _
  obtain ⟨result, hresult⟩ := exists_of_isOk (x := overwrittenHalvesResult) (by decide +kernel)
  obtain ⟨d, hd, hmerges⟩ := hreported _ _ _ _ _ _ _ grown hresult
  have hpieces : (DependenceSource.ofLoop {} (halvesFunction ∅ ∅) halvesTree twoBlocks halvesAnswer
      (halvesFunction ∅ ∅).modRef).collect.toOption.map (·.pieces halvesTree ⟨0⟩)
        = some [halfRecord 1, halfRecord 2] := by
    decide +kernel
  rw [hd] at hpieces
  replace hpieces : d.pieces halvesTree ⟨0⟩ = [halfRecord 1, halfRecord 2] :=
    Option.some.inj hpieces
  obtain ⟨s, d', l, st, rfl⟩ := classifyLoop_eq_ok.mp hresult
  obtain rfl : s = halvesScope ∅ ∅ := st.scope_eq rfl
  have hheads := st.eval (fun l => (halvesScope ∅ ∅).heads l AliasTree.top) (a := [⟨0⟩, ⟨0⟩])
    (by decide +kernel)
  obtain ⟨nt, mt, hnt, hmt, hmemory, -⟩ := Scope.exists_report_top (s := halvesScope ∅ ∅)
    grown.wellFormed (Scope.noted_resolve st.ledger) {} (m := ⟨0⟩)
    (by rw [hheads]; exact List.mem_cons_self)
  -- The upper half first, and the lower one after it.
  have hmerged : Merges (d.pieces halvesTree mt.memory) ((halfRecord 2).merge (halfRecord 1)) := by
    rw [hmemory, hpieces]
    exact .both (.one _) (.one _) (.swap ..)
  refine ⟨hlow, hhigh, hswap, hflagged, hwhole, _, nt, mt, grown, hresult, hnt, hmt, hmemory, ?_⟩
  rw [← hwhole, ← hswap]
  exact (hmerges _ nt hnt mt hmt _).mpr hmerged

end Privatization
