import Privatization.Alias.Cover
import Privatization.Proofs.Alias.Ancestry

/-!
# What a sweep finds

The sweep over byte ranges in ascending order decides whether every byte of the target lies in one
of the ranges (`sweep_iff`), so sorting first makes the answer independent of the order in which the
ranges are given (`spanned_iff`). For the pieces of an object, `covers_iff` says the same with the
ranges of the estimate memories, and `covers_bytewise` byte by byte.
-/

namespace Privatization

namespace ByteRange

theorem mem_iff {b : Nat} {r : ByteRange} : b ∈ r ↔ r.start ≤ b ∧ b < r.stop := Iff.rfl

/-- Ranges are sorted by where they start, and those that start together by where they stop. -/
theorem le_iff {a b : ByteRange} :
    le a b = true ↔ a.start < b.start ∨ a.start = b.start ∧ a.stop ≤ b.stop := by
  unfold le
  rw [Bool.or_eq_true, Bool.and_eq_true, decide_eq_true_iff, decide_eq_true_iff, beq_iff_eq]

/-- The ranges in ascending order span everything from `reached` to `stop` exactly if no byte in
between is missing from all of them. -/
theorem sweep_iff {stop reached : Nat} {ranges : List ByteRange}
    (h : ranges.Pairwise fun a b => a.start ≤ b.start) :
    sweep stop reached ranges = true ↔
      ∀ b, reached ≤ b → b < stop → ∃ r ∈ ranges, b ∈ r := by
  induction ranges generalizing reached with
  | nil =>
    unfold sweep
    rw [decide_eq_true_iff]
    constructor
    · intro hle b hb hb'
      omega
    · intro hall
      by_cases hlt : reached < stop
      · obtain ⟨r, hr, -⟩ := hall reached (Nat.le_refl _) hlt
        cases hr
      · omega
  | cons r rs ih =>
    obtain ⟨hfirst, hrest⟩ := List.pairwise_cons.mp h
    unfold sweep
    split
    next hdone =>
      refine ⟨fun _ b hb hb' => ?_, fun _ => rfl⟩
      omega
    next hopen =>
      split
      next hpast =>
        -- The range ends before what is still to be spanned.
        rw [ih hrest]
        refine forall₃_congr fun b hb _ => ⟨fun ⟨x, hx, hbx⟩ => ?_, fun ⟨x, hx, hbx⟩ => ?_⟩
        · exact ⟨x, List.mem_cons_of_mem r hx, hbx⟩
        · rcases List.mem_cons.mp hx with rfl | hx
          · have := (mem_iff.mp hbx).2
            omega
          · exact ⟨x, hx, hbx⟩
      next hnot =>
        split
        next hgap =>
          -- This range starts too late, and so does every later one.
          refine ⟨fun h => absurd h Bool.false_ne_true, fun hall => ?_⟩
          obtain ⟨x, hx, hbx⟩ := hall reached (Nat.le_refl _) (by omega)
          have hstart := (mem_iff.mp hbx).1
          rcases List.mem_cons.mp hx with rfl | hx
          · omega
          · have := hfirst x hx
            omega
        next hmeets =>
          rw [ih hrest]
          constructor
          · intro hall b hb hb'
            by_cases hin : b < r.stop
            · exact ⟨r, List.mem_cons_self, mem_iff.mpr ⟨by omega, hin⟩⟩
            · obtain ⟨x, hx, hbx⟩ := hall b (by omega) hb'
              exact ⟨x, List.mem_cons_of_mem r hx, hbx⟩
          · intro hall b hb hb'
            obtain ⟨x, hx, hbx⟩ := hall b (by omega) hb'
            rcases List.mem_cons.mp hx with rfl | hx
            · have := (mem_iff.mp hbx).2
              omega
            · exact ⟨x, hx, hbx⟩

/-- Ranges span a target exactly if there is one and every byte of the target lies in one. -/
theorem spanned_iff {target : ByteRange} {ranges : List ByteRange} :
    target.spanned ranges = true ↔ ranges ≠ [] ∧ ∀ b ∈ target, ∃ r ∈ ranges, b ∈ r := by
  have hsorted : (ranges.mergeSort le).Pairwise fun a b => a.start ≤ b.start := by
    refine (List.pairwise_mergeSort ?_ ?_ ranges).imp fun {a b} hle => ?_
    · intro a b c hab hbc
      rw [le_iff] at *
      omega
    · intro a b
      rw [Bool.or_eq_true, le_iff, le_iff]
      omega
    · rw [le_iff] at hle
      omega
  unfold spanned
  rw [Bool.and_eq_true, Bool.not_eq_true', List.isEmpty_eq_false_iff, sweep_iff hsorted]
  refine and_congr_right fun _ => ?_
  simp only [List.mem_mergeSort, mem_iff, and_imp]

end ByteRange

namespace AliasTree

variable {t : AliasTree}

/-- What has its outermost object in common with a memory of the tree is in the tree, too. -/
theorem exists_estimate_of_outermost {target p : EstimateId} {e : Estimate}
    (he : t.estimate? target = some e) (h : t.outermost p = t.outermost target) :
    ∃ e', t.estimate? p = some e' := by
  cases hparent : t.estimateParent? p with
  | some q =>
    obtain ⟨e', he', -⟩ := Option.bind_eq_some_iff.mp hparent
    exact ⟨e', he'⟩
  | none =>
    -- A memory without parent is the outermost one itself, and that one has a smaller number.
    have hnone : t.estimateForest.parent p.index = none := by
      rw [estimateForest_parent, hparent]
      rfl
    have hself := (t.estimateForest.mem_lineage_of_none hnone).mp
      (t.estimateForest.root_mem_lineage p.index)
    have hle := t.estimateForest.le_of_mem_lineage (t.estimateForest.root_mem_lineage target.index)
    have hobject : t.estimateForest.root p.index = t.estimateForest.root target.index :=
      congrArg EstimateId.index h
    have htarget : target.index < t.estimates.size := (Array.getElem?_eq_some_iff.mp he).1
    exact ⟨_, Array.getElem?_eq_getElem (i := p.index) (by omega)⟩

/-- Pieces span a memory exactly if one of them belongs to its outermost object and every byte of
the memory lies in such a piece. -/
theorem covers_iff {target : EstimateId} {pieces : List EstimateId} {e : Estimate}
    (he : t.estimate? target = some e) :
    t.covers target pieces = true ↔
      (∃ p ∈ pieces, t.outermost p = t.outermost target ∧ ∃ e', t.estimate? p = some e') ∧
        ∀ b ∈ e.range, ∃ p ∈ pieces, t.outermost p = t.outermost target
          ∧ ∃ e', t.estimate? p = some e' ∧ b ∈ e'.range := by
  -- The ranges that are compared are those of the pieces in the same object.
  have hrange (r : ByteRange) :
      (r ∈ (pieces.filter fun p => t.outermost p == t.outermost target).filterMap
          fun p => (t.estimate? p).map (·.range)) ↔
        ∃ p ∈ pieces, t.outermost p = t.outermost target
          ∧ ∃ e', t.estimate? p = some e' ∧ e'.range = r := by
    rw [List.mem_filterMap]
    refine exists_congr fun p => ?_
    rw [List.mem_filter, beq_iff_eq, Option.map_eq_some_iff, and_assoc]
  unfold covers
  rw [he]
  dsimp only
  rw [ByteRange.spanned_iff]
  refine and_congr ?_ (forall₂_congr fun b _ => ?_)
  · constructor
    · intro hne
      obtain ⟨r, hr⟩ := List.exists_mem_of_ne_nil _ hne
      obtain ⟨p, hp, hobject, e', he', -⟩ := (hrange r).mp hr
      exact ⟨p, hp, hobject, e', he'⟩
    · rintro ⟨p, hp, hobject, e', he'⟩
      exact List.ne_nil_of_mem ((hrange _).mpr ⟨p, hp, hobject, e', he', rfl⟩)
  · constructor
    · rintro ⟨r, hr, hb⟩
      obtain ⟨p, hp, hobject, e', he', rfl⟩ := (hrange r).mp hr
      exact ⟨p, hp, hobject, e', he', hb⟩
    · rintro ⟨p, hp, hobject, e', he', hb⟩
      exact ⟨e'.range, (hrange _).mpr ⟨p, hp, hobject, e', he', rfl⟩, hb⟩

/-- A memory among the pieces covers itself. -/
theorem covers_self {target : EstimateId} {pieces : List EstimateId} {e : Estimate}
    (he : t.estimate? target = some e) (h : target ∈ pieces) : t.covers target pieces = true :=
  (covers_iff he).mpr ⟨⟨target, h, rfl, e, he⟩, fun _ hb => ⟨target, h, rfl, e, he, hb⟩⟩

/-- Neither the order of the pieces matters nor how often one is given. -/
theorem covers_congr {pieces pieces' : List EstimateId} (h : ∀ p, p ∈ pieces ↔ p ∈ pieces')
    (target : EstimateId) : t.covers target pieces = t.covers target pieces' := by
  cases he : t.estimate? target with
  | none =>
    unfold covers
    rw [he]
  | some e =>
    rw [Bool.eq_iff_iff, covers_iff he, covers_iff he]
    simp only [h]

/-- The sweep tells what holds byte by byte: a memory is covered exactly if some piece belongs to
its outermost object and each of its bytes lies in such a piece. So neither the order of the pieces
matters nor how often one is given, and further pieces never uncover a memory. -/
theorem covers_bytewise {target : EstimateId} {e : Estimate} (he : t.estimate? target = some e)
    (pieces : List EstimateId) :
    (t.covers target pieces = true ↔
      (∃ p ∈ pieces, t.outermost p = t.outermost target) ∧
        ∀ b ∈ e.range, ∃ p ∈ pieces, t.outermost p = t.outermost target
          ∧ ∃ e', t.estimate? p = some e' ∧ b ∈ e'.range)
      ∧ (∀ pieces', (∀ p, p ∈ pieces' ↔ p ∈ pieces) →
          t.covers target pieces' = t.covers target pieces)
      ∧ ∀ more, pieces ⊆ more → t.covers target pieces = true → t.covers target more = true := by
  refine ⟨?_, fun pieces' h => covers_congr h target, fun more hmore hcovers => ?_⟩
  · rw [covers_iff he]
    refine and_congr_left fun _ => exists_congr fun p => and_congr_right fun _ => ?_
    exact and_iff_left_of_imp fun hobject => exists_estimate_of_outermost he hobject
  · obtain ⟨⟨p, hp, hobject⟩, hbytes⟩ := (covers_iff he).mp hcovers
    refine (covers_iff he).mpr ⟨⟨p, hmore hp, hobject⟩, fun b hb => ?_⟩
    obtain ⟨q, hq, hin⟩ := hbytes b hb
    exact ⟨q, hmore hq, hin⟩

/-- An object without known size and two overlapping parts of it, the second open at its end as
well, beside an object of its own. -/
def openTree : AliasTree := .ofAdditions [
  .node top .estimate, .estimate ⟨1⟩ [⟨0⟩] none 0 none,
  .estimate ⟨1⟩ [⟨1⟩] (some 6) 0 (some ⟨0⟩), .estimate ⟨1⟩ [⟨2⟩] none 4 (some ⟨0⟩),
  .estimate ⟨1⟩ [⟨3⟩] (some 8) 0 none]

/-- Six bytes and the open rest cover the whole, in any order and with a stranger among them. -/
theorem covers_bytewise_openTree :
    ∃ e, openTree.estimate? ⟨0⟩ = some e
      ∧ (openTree.covers ⟨0⟩ [⟨3⟩, ⟨2⟩, ⟨1⟩] = true ↔
        (∃ p ∈ [⟨3⟩, ⟨2⟩, ⟨1⟩], openTree.outermost p = openTree.outermost ⟨0⟩)
          ∧ ∀ b ∈ e.range, ∃ p ∈ [⟨3⟩, ⟨2⟩, ⟨1⟩], openTree.outermost p = openTree.outermost ⟨0⟩
            ∧ ∃ e', openTree.estimate? p = some e' ∧ b ∈ e'.range)
      ∧ openTree.covers ⟨0⟩ [⟨3⟩, ⟨2⟩, ⟨1⟩] = true
      ∧ openTree.covers ⟨0⟩ [⟨1⟩, ⟨2⟩, ⟨3⟩, ⟨1⟩] = true := by
  have hwhole : openTree.estimate? ⟨0⟩ = some ⟨⟨0⟩, [], none, 0, none, ⟨1⟩⟩ := by decide +kernel
  have hfirst : openTree.estimate? ⟨1⟩ = some ⟨⟨1⟩, [], some 6, 0, some ⟨0⟩, ⟨1⟩⟩ := by
    decide +kernel
  have hrest : openTree.estimate? ⟨2⟩ = some ⟨⟨2⟩, [], none, 4, some ⟨0⟩, ⟨1⟩⟩ := by
    decide +kernel
  have hobject : openTree.outermost ⟨1⟩ = openTree.outermost ⟨0⟩
      ∧ openTree.outermost ⟨2⟩ = openTree.outermost ⟨0⟩ := by decide +kernel
  obtain ⟨hbytes, hsame, -⟩ := covers_bytewise hwhole [⟨3⟩, ⟨2⟩, ⟨1⟩]
  have hcovers : openTree.covers ⟨0⟩ [⟨3⟩, ⟨2⟩, ⟨1⟩] = true := by
    refine hbytes.mpr ⟨⟨⟨1⟩, by decide, hobject.1⟩, fun b hb => ?_⟩
    rcases Nat.lt_or_ge b 6 with hlow | hhigh
    · exact ⟨⟨1⟩, by decide, hobject.1, _, hfirst, Nat.zero_le b, hlow⟩
    · exact ⟨⟨2⟩, by decide, hobject.2, _, hrest, Nat.le_trans (by decide) hhigh, hb.2⟩
  refine ⟨_, hwhole, hbytes, hcovers, (hsame _ fun p => ?_).trans hcovers⟩
  simp only [List.mem_cons, List.not_mem_nil, or_false]
  tauto

/-- Only memory that exists is covered. -/
theorem exists_estimate_of_covers {target : EstimateId} {pieces : List EstimateId}
    (h : t.covers target pieces = true) : ∃ e, t.estimate? target = some e := by
  unfold covers at h
  split at h
  · cases h
  · next e he => exact ⟨e, he⟩

/-- The walk through the parts of a memory comes to what lies inside it. -/
theorem mem_estimateDescendants {m e : EstimateId} (hm : m.index < t.estimates.size) :
    e ∈ t.estimateDescendants m ↔ e.index < t.estimates.size ∧ t.isEstimateAncestor m e = true := by
  unfold estimateDescendants
  rw [isEstimateAncestor_iff]
  constructor
  · intro h
    obtain ⟨i, hi, rfl⟩ := List.mem_map.mp h
    exact (t.estimateForest.mem_preOrder hm).mp hi
  · intro h
    exact List.mem_map.mpr ⟨e.index, (t.estimateForest.mem_preOrder hm).mpr h, rfl⟩

end AliasTree

end Privatization
