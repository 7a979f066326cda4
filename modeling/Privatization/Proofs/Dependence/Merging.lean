import Privatization.Proofs.Dependence.Aggregation

/-!
# Merging records

A merge adds up what two records were made of (`KindRecord.Sums.merge`), and what a record was made
of determines it (`KindRecord.Sums.unique`). So merging the records of two runs of updates gives the
record of both runs (`DependenceRecord.merge_foldl_add`), provided that no update is flagged and has
a distance all the same.

On records that keep no distance beside an unknown one (`DependenceRecord.Sound`) merging is a
commutative and idempotent monoid with the empty record as its unit, and whatever is made of some
records by merging, in whichever order and grouping (`Merges`), is the same (`merges_iff`).
-/

namespace Privatization

/-! ## One kind -/

namespace KindRecord

variable {r s t : KindRecord} {mark : DependenceMark} {d : Distance} {p q : Occurrence → Prop}

/-- Records are equal if they have the same marks and the same distances. -/
theorem ext_mem (hmarks : ∀ mark, mark ∈ r.marks ↔ mark ∈ s.marks)
    (hdistances : ∀ d, d ∈ r.distances ↔ d ∈ s.distances) : r = s :=
  ext (FlagSet.ext fun mark => Bool.eq_iff_iff.mpr (hmarks mark)) (SortedSet.ext hdistances)

/-- Merged marks are those of either record. -/
theorem mem_marks_merge : mark ∈ (r.merge s).marks ↔ mark ∈ r.marks ∨ mark ∈ s.marks :=
  FlagSet.mem_union

/-- A merge is unknown if either record is. -/
theorem unknown_merge : (r.merge s).Unknown ↔ r.Unknown ∨ s.Unknown := mem_marks_merge

/-- The distances add up, unless one of the records is unknown: then there are none. -/
theorem distances_merge :
    (r.merge s).distances
      = if r.Unknown ∨ s.Unknown then ∅ else r.distances ∪ s.distances := by
  have hunknown : (r.marks ∪ s.marks).has .unknownDistance = true ↔ r.Unknown ∨ s.Unknown :=
    FlagSet.mem_union
  unfold merge
  simp only [hunknown]

theorem mem_distances_merge :
    d ∈ (r.merge s).distances
      ↔ ¬ (r.Unknown ∨ s.Unknown) ∧ (d ∈ r.distances ∨ d ∈ s.distances) := by
  rw [distances_merge]
  by_cases h : r.Unknown ∨ s.Unknown
  · simp [h]
  · simp [h]

theorem not_unknown_empty : ¬ (∅ : KindRecord).Unknown := FlagSet.not_mem_empty _

/-- Nothing recorded means no distance. -/
theorem not_mem_distances_empty (d : Distance) : d ∉ (∅ : KindRecord).distances :=
  SortedSet.not_mem_empty d

/-! ### Laws -/

/-- The order of two records does not matter. -/
theorem merge_comm (r s : KindRecord) : r.merge s = s.merge r := by
  apply ext_mem
  · intro mark
    rw [mem_marks_merge, mem_marks_merge, Or.comm]
  · intro d
    rw [mem_distances_merge, mem_distances_merge, @Or.comm r.Unknown, @Or.comm (d ∈ r.distances)]

/-- Nor does their grouping: once unknown, a merge stays without distances. -/
theorem merge_assoc (r s t : KindRecord) : (r.merge s).merge t = r.merge (s.merge t) := by
  apply ext_mem
  · intro mark
    simp only [mem_marks_merge, or_assoc]
  · intro d
    simp only [mem_distances_merge, unknown_merge]
    grind

section Cleared

/-! A record that keeps distances beside an unknown one would lose them in any merge. -/

variable (h : r.Unknown → r.distances = ∅)

include h

/-- A record with a distance is not unknown. -/
theorem not_unknown_of_mem (hd : d ∈ r.distances) : ¬ r.Unknown := by
  intro hunknown
  rw [h hunknown] at hd
  exact SortedSet.not_mem_empty d hd

/-- Merging a record with itself changes nothing. -/
theorem merge_self : r.merge r = r := by
  apply ext_mem
  · intro mark
    rw [mem_marks_merge, or_self]
  · intro d
    rw [mem_distances_merge, or_self, or_self]
    exact and_iff_right_of_imp (not_unknown_of_mem h)

/-- The empty record adds nothing. -/
theorem merge_empty : r.merge ∅ = r := by
  apply ext_mem
  · intro mark
    rw [mem_marks_merge]
    exact or_iff_left (FlagSet.not_mem_empty mark)
  · intro d
    rw [mem_distances_merge, or_iff_left not_unknown_empty, or_iff_left (not_mem_distances_empty d)]
    exact and_iff_right_of_imp (not_unknown_of_mem h)

end Cleared

/-- A merge that is unknown has no distances, whatever the records had. -/
theorem distances_merge_of_unknown (h : (r.merge s).Unknown) : (r.merge s).distances = ∅ := by
  rw [distances_merge, if_pos (unknown_merge.mp h)]

/-! ### Merging what was seen -/

/-- A record is unknown exactly if an occurrence was flagged or had no distance. -/
theorem Sums.unknown_iff (h : r.Sums p) :
    r.Unknown ↔ (∃ o, p o ∧ o.flagged = true) ∨ ∃ o, p o ∧ o.distance = none :=
  (h.marks .unknownDistance).trans (or_congr_right (and_iff_right rfl))

/-- What was seen of a kind determines its record. -/
theorem Sums.unique (hr : r.Sums p) (hs : s.Sums p) : r = s := by
  apply ext_mem
  · intro mark
    rw [hr.marks, hs.marks]
  · intro d
    by_cases hnone : ∃ o, p o ∧ o.distance = none
    · rw [(hr.unknown hnone).2, (hs.unknown hnone).2]
    · have hknown : ∀ o, p o → o.distance ≠ none := fun o ho hd => hnone ⟨o, ho, hd⟩
      rw [hr.known hknown, hs.known hknown]

/-- Where flags only come without distance, an unknown record has no distances. -/
theorem Sums.distances_eq_empty (h : r.Sums p)
    (hflagged : ∀ o, p o → o.flagged = true → o.distance = none) (hunknown : r.Unknown) :
    r.distances = ∅ := by
  rcases h.unknown_iff.mp hunknown with ⟨o, ho, hflag⟩ | hnone
  · exact (h.unknown ⟨o, ho, hflagged o ho hflag⟩).2
  · exact (h.unknown hnone).2

/-- A merge holds what was seen of either record. -/
theorem Sums.merge (hr : r.Sums p) (hs : s.Sums q)
    (hflagged : ∀ o, p o ∨ q o → o.flagged = true → o.distance = none) :
    (r.merge s).Sums fun o => p o ∨ q o := by
  constructor
  case marks =>
    intro mark
    rw [mem_marks_merge, hr.marks, hs.marks]
    grind
  case unknown =>
    -- An occurrence without distance makes its own record unknown, and so the merge.
    rintro ⟨o, ho, hnone⟩
    have hunknown : (r.merge s).Unknown := by
      refine unknown_merge.mpr (ho.imp (fun hp => ?_) fun hq => ?_)
      · exact (hr.unknown ⟨o, hp, hnone⟩).1
      · exact (hs.unknown ⟨o, hq, hnone⟩).1
    exact ⟨hunknown, distances_merge_of_unknown hunknown⟩
  case known =>
    intro hknown d
    -- No occurrence is flagged, since those with a distance are not.
    have hfree : ¬ (r.Unknown ∨ s.Unknown) := by
      rw [hr.unknown_iff, hs.unknown_iff]
      grind
    rw [mem_distances_merge, and_iff_right hfree, hr.known fun o ho => hknown o (.inl ho),
      hs.known fun o ho => hknown o (.inr ho)]
    grind

end KindRecord

/-! ## All kinds -/

namespace DependenceRecord

variable {r s t : DependenceRecord} {us vs : List Occurrence}

/-- A kind whose distance is unknown has no distances, and a kind that was not recorded has no
details. -/
structure Sound (r : DependenceRecord) : Prop where
  cleared : ∀ k, (r.details k).Unknown → (r.details k).distances = ∅
  recorded : ∀ k, k ∉ r.kinds → r.details k = ∅

/-- The kinds of a merge are those of either record. -/
theorem mem_kinds_merge {k : CarriedKind} : k ∈ (r.merge s).kinds ↔ k ∈ r.kinds ∨ k ∈ s.kinds :=
  FlagSet.mem_union

/-- The empty record is sound. -/
theorem Sound.empty : (∅ : DependenceRecord).Sound where
  cleared k h := by
    rw [details_empty] at h
    exact absurd h KindRecord.not_unknown_empty
  recorded k _ := details_empty k

/-- Merging keeps records sound. -/
theorem Sound.merge (hr : r.Sound) (hs : s.Sound) : (r.merge s).Sound where
  cleared k h := by
    rw [details_merge] at h ⊢
    exact KindRecord.distances_merge_of_unknown h
  recorded k hk := by
    rw [mem_kinds_merge, not_or] at hk
    rw [details_merge, hr.recorded k hk.1, hs.recorded k hk.2]
    rfl

/-! ### Laws -/

/-- The order of two records does not matter. -/
theorem merge_comm (r s : DependenceRecord) : r.merge s = s.merge r := by
  apply ext
  · exact FlagSet.ext fun k => by simp only [DependenceRecord.merge, FlagSet.has_union, Bool.or_comm]
  · intro k
    rw [details_merge, details_merge, KindRecord.merge_comm]

theorem merge_assoc (r s t : DependenceRecord) : (r.merge s).merge t = r.merge (s.merge t) := by
  apply ext
  · exact FlagSet.ext fun k => by simp only [DependenceRecord.merge, FlagSet.has_union, Bool.or_assoc]
  · intro k
    simp only [details_merge, KindRecord.merge_assoc]

/-- A sound record is not changed by itself. -/
theorem Sound.merge_self (h : r.Sound) : r.merge r = r := by
  apply ext
  · exact FlagSet.ext fun k => by simp only [DependenceRecord.merge, FlagSet.has_union, Bool.or_self]
  · intro k
    rw [details_merge, KindRecord.merge_self (h.cleared k)]

/-- The empty record adds nothing to a sound one. -/
theorem Sound.merge_empty (h : r.Sound) : r.merge ∅ = r := by
  apply ext
  · show r.kinds ∪ ∅ = r.kinds
    exact FlagSet.ext fun k => by rw [FlagSet.has_union, FlagSet.has_empty, Bool.or_false]
  · intro k
    rw [details_merge, details_empty, KindRecord.merge_empty (h.cleared k)]

theorem Sound.empty_merge (h : r.Sound) : (∅ : DependenceRecord).merge r = r := by
  rw [merge_comm, h.merge_empty]

/-! ### Updates -/

/-- A run of updates leaves for each kind what the updates of that kind make of it. -/
theorem sums_foldl_add (h : ∀ o ∈ us, o.flagged = true → o.distance = none) (k : CarriedKind) :
    ((us.foldl add ∅).details k).Sums fun o => o ∈ us ∧ k ∈ o.kinds := by
  rw [details_foldl_add, details_empty]
  apply KindRecord.sums_foldl_add
  · intro o
    simp
  · intro o ho
    exact h o ho.1

/-- Updates that are flagged only where they have no distance leave a sound record. -/
theorem sound_foldl_add (h : ∀ o ∈ us, o.flagged = true → o.distance = none) :
    (us.foldl add ∅).Sound where
  cleared k := (sums_foldl_add h k).distances_eq_empty fun o ho => h o ho.1
  recorded k hk := by
    -- A kind that is not recorded was in no update.
    have hnone : us.filter (k ∈ ·.kinds) = [] := by
      rw [List.filter_eq_nil_iff]
      intro o ho hok
      exact hk (mem_kinds_foldl_add.mpr (.inr ⟨o, ho, of_decide_eq_true hok⟩))
    rw [details_foldl_add, hnone, details_empty]
    rfl

/-- Merging the records of two runs gives the record of one run after the other. -/
theorem merge_foldl_add (h : ∀ o ∈ us ++ vs, o.flagged = true → o.distance = none) :
    (us.foldl add ∅).merge (vs.foldl add ∅) = (us ++ vs).foldl add ∅ := by
  obtain ⟨hus, hvs⟩ := List.forall_mem_append.mp h
  apply ext
  · refine FlagSet.ext fun k => Bool.eq_iff_iff.mpr ?_
    have hempty : k ∉ (∅ : DependenceRecord).kinds := FlagSet.not_mem_empty k
    rw [← FlagSet.mem_def, ← FlagSet.mem_def, mem_kinds_merge]
    simp only [mem_kinds_foldl_add, hempty, false_or, List.mem_append, or_and_right, exists_or]
  · intro k
    -- Both sides are made of the same occurrences, and these determine the record.
    rw [details_merge]
    have hmerge := (sums_foldl_add hus k).merge (sums_foldl_add hvs k) fun o ho =>
      h o (List.mem_append.mpr (ho.imp And.left And.left))
    have hboth := sums_foldl_add h k
    simp only [List.mem_append, or_and_right] at hboth
    exact hmerge.unique hboth

end DependenceRecord

/-! ## Any order, any grouping -/

open DependenceRecord (Sound)

variable {rs ss : List DependenceRecord} {r s : DependenceRecord}

/-- Merging the records `rs`, each of them once, gives `r`. It is left open which of them are merged
first. -/
inductive Merges : List DependenceRecord → DependenceRecord → Prop where
  | one (r : DependenceRecord) : Merges [r] r
  | both {rs ss ts : List DependenceRecord} {r s : DependenceRecord} (first : Merges rs r)
      (second : Merges ss s) (order : ts.Perm (rs ++ ss)) : Merges ts (r.merge s)

/-- Something was merged. -/
theorem Merges.ne_nil (h : Merges rs r) : rs ≠ [] := by
  induction h with
  | one r => exact List.cons_ne_nil r []
  | both _ _ order ih _ =>
    rintro rfl
    exact ih (List.append_eq_nil_iff.mp order.nil_eq.symm).1

/-- A list of sound records merges to a sound one. -/
theorem sound_foldl_merge (hr : r.Sound) (h : ∀ s ∈ rs, s.Sound) :
    (rs.foldl DependenceRecord.merge r).Sound := by
  induction rs generalizing r with
  | nil => exact hr
  | cons s rs ih =>
    obtain ⟨hs, hrs⟩ := List.forall_mem_cons.mp h
    exact ih (hr.merge hs) hrs

/-- What is merged in front of a list may as well be merged behind it. -/
theorem foldl_merge (hr : r.Sound) (h : ∀ s ∈ rs, s.Sound) :
    rs.foldl DependenceRecord.merge r = r.merge (rs.foldl DependenceRecord.merge ∅) := by
  induction rs generalizing r with
  | nil => exact hr.merge_empty.symm
  | cons s rs ih =>
    obtain ⟨hs, hrs⟩ := List.forall_mem_cons.mp h
    rw [List.foldl_cons, List.foldl_cons, ih (hr.merge hs) hrs, hs.empty_merge, ih hs hrs,
      DependenceRecord.merge_assoc]

/-- Merging a list does not depend on its order. -/
theorem foldl_merge_perm (h : rs.Perm ss) (r : DependenceRecord) :
    rs.foldl DependenceRecord.merge r = ss.foldl DependenceRecord.merge r :=
  h.foldl_eq' (fun a _ b _ c => by
    rw [DependenceRecord.merge_assoc, DependenceRecord.merge_comm a b,
      ← DependenceRecord.merge_assoc]) r

/-- However sound records are merged, the result is that of merging them in a row. -/
theorem Merges.eq_foldl (h : Merges rs r) (hsound : ∀ s ∈ rs, s.Sound) :
    r = rs.foldl DependenceRecord.merge ∅ := by
  induction h with
  | one r => exact (hsound r List.mem_cons_self).empty_merge.symm
  | @both rs ss ts r s first second order ihr ihs =>
    have hall : ∀ s ∈ rs ++ ss, s.Sound := fun s hs => hsound s (order.mem_iff.mpr hs)
    obtain ⟨hrs, hss⟩ := List.forall_mem_append.mp hall
    -- The list is put in the order of its two parts, and the second is merged on its own.
    rw [foldl_merge_perm order, List.foldl_append, ← ihr hrs]
    have hr : r.Sound := by
      rw [ihr hrs]
      exact sound_foldl_merge .empty hrs
    rw [foldl_merge hr hss, ← ihs hss]

/-- One more record is merged behind the others. -/
theorem Merges.concat (h : Merges rs r) (s : DependenceRecord) : Merges (rs ++ [s]) (r.merge s) :=
  .both h (.one s) (.refl _)

/-- A list may be merged into a record one by one. -/
theorem Merges.append (h : Merges rs r) (ss : List DependenceRecord) :
    Merges (rs ++ ss) (ss.foldl DependenceRecord.merge r) := by
  induction ss generalizing rs r with
  | nil =>
    rw [List.append_nil]
    exact h
  | cons s ss ih =>
    rw [List.append_cons]
    exact ih (h.concat s)

/-- Sound records merge to one record only, and where there are some, to one at least. -/
theorem merges_iff (h : ∀ s ∈ rs, s.Sound) :
    Merges rs r ↔ rs ≠ [] ∧ r = rs.foldl DependenceRecord.merge ∅ := by
  constructor
  · intro hmerges
    exact ⟨hmerges.ne_nil, hmerges.eq_foldl h⟩
  · rintro ⟨hne, rfl⟩
    obtain ⟨s, ss, rfl⟩ := List.exists_cons_of_ne_nil hne
    rw [List.foldl_cons, (h s List.mem_cons_self).empty_merge]
    exact (Merges.one s).append ss

end Privatization
