import Mathlib.Data.List.Basic
import Mathlib.Data.List.Induction
import Privatization.Proofs.Dependence.Occurrences

/-!
# Records under updates and merges

A record whose distance is unknown should keep no distances. A merge sees to that, and so does an
occurrence without distance. An occurrence that is flagged and has a distance all the same does not:
it leaves the distances that were known before it, and they stay until the next merge or the next
occurrence without distance (`Inconsistent`, `inconsistent_apply`, `inconsistent_run`). For the same
reason the order of updates matters where some occurrences of a kind are flagged, others are not, and
all of them have distances (`foldl_add_perm`). Both together are `inconsistent_iff_and_perm_iff`.
-/

namespace Privatization

/-! ## One kind -/

namespace KindRecord

variable {r s : KindRecord} {o : Occurrence} {os os' : List Occurrence} {d : Distance}

/-- Distances are kept although some occurrence has no known distance. -/
def Inconsistent (r : KindRecord) : Prop := r.Unknown ∧ r.distances ≠ ∅

instance : Decidable r.Inconsistent := inferInstanceAs (Decidable (_ ∧ _))

/-- The distances of `r` outlast the flag that `o` brings along with a distance. -/
def SpoiledBy (r : KindRecord) (o : Occurrence) : Prop :=
  ¬ r.Unknown ∧ r.distances ≠ ∅ ∧ o.flagged = true ∧ o.distance ≠ none

/-- After an occurrence a kind is inconsistent if the occurrence spoiled it, or if it was so and the
occurrence has a distance. -/
theorem inconsistent_add :
    (r.add o).Inconsistent ↔ r.SpoiledBy o ∨ r.Inconsistent ∧ o.distance ≠ none := by
  unfold Inconsistent SpoiledBy
  rw [unknown_add]
  cases h : o.distance with
  | none => simp [distances_add_of_none h]
  | some d =>
    rw [distances_add_of_some h]
    by_cases hr : r.Unknown
    · simp [hr]
    · cases hflagged : o.flagged <;> simp [hr]

/-- A merge leaves no kind inconsistent. -/
theorem not_inconsistent_merge : ¬ (r.merge s).Inconsistent := by
  rintro ⟨hunknown, hdistances⟩
  exact hdistances (if_pos hunknown)

/-- Where all occurrences are flagged or none is, the first flag has nothing in front of
it to keep. -/
theorem mem_takeWhile_of_uniform (h : ∀ o ∈ os, ∀ o' ∈ os, o.flagged = o'.flagged) :
    o ∈ os.takeWhile (!·.flagged) ↔ o ∈ os ∧ o.flagged = false := by
  constructor
  · intro ho
    exact ⟨(List.takeWhile_prefix _).subset ho, by simpa using List.mem_takeWhile_imp ho⟩
  · rintro ⟨ho, hflagged⟩
    have hall : os.takeWhile (!·.flagged) = os :=
      List.takeWhile_eq_self_iff.mpr fun o' ho' => by rw [h o' ho' o ho, hflagged]; rfl
    rw [hall]
    exact ho

/-- Where some occurrence has no distance, or all agree on the flag, their order does not matter. -/
theorem foldl_add_perm (hperm : os.Perm os')
    (h : (∃ o ∈ os, o.distance = none) ∨ ∀ o ∈ os, ∀ o' ∈ os, o.flagged = o'.flagged) :
    os.foldl add ∅ = os'.foldl add ∅ := by
  have hmarks : (os.foldl add ∅).marks = (os'.foldl add ∅).marks := by
    refine FlagSet.ext fun mark => Bool.eq_iff_iff.mpr ?_
    rw [← FlagSet.mem_def, ← FlagSet.mem_def, mem_marks_foldl_add, mem_marks_foldl_add]
    simp only [hperm.mem_iff]
  have hdistances : (os.foldl add ∅).distances = (os'.foldl add ∅).distances := by
    -- An occurrence without distance leaves none in any order; otherwise all are kept or none is.
    by_cases hnone : ∃ o ∈ os, o.distance = none
    · have hnone' : ∃ o ∈ os', o.distance = none := by simpa only [hperm.mem_iff] using hnone
      rw [distances_foldl_add_of_none hnone, distances_foldl_add_of_none hnone']
    · have huniform := h.resolve_left hnone
      have hknown : ∀ o ∈ os, o.distance ≠ none := fun o ho hd => hnone ⟨o, ho, hd⟩
      have huniform' : ∀ o ∈ os', ∀ o' ∈ os', o.flagged = o'.flagged := by
        simpa only [hperm.mem_iff] using huniform
      have hknown' : ∀ o ∈ os', o.distance ≠ none := by simpa only [hperm.mem_iff] using hknown
      refine SortedSet.ext fun d => ?_
      rw [mem_distances_foldl_add hknown, mem_distances_foldl_add hknown']
      simp only [mem_takeWhile_of_uniform huniform, mem_takeWhile_of_uniform huniform',
        hperm.mem_iff]
  exact ext hmarks hdistances

/-- What comes first decides, if it is flagged, that no distance is kept. -/
theorem distances_foldl_add_of_flagged (h : ∀ x ∈ o :: os, x.distance ≠ none)
    (hflagged : o.flagged = true) : ((o :: os).foldl add ∅).distances = ∅ := by
  refine SortedSet.ext fun d => ?_
  rw [mem_distances_foldl_add h, List.takeWhile_cons_of_neg (by simp [hflagged])]
  exact or_iff_left fun ⟨_, _, ho, _⟩ => absurd ho List.not_mem_nil

/-- If it is not flagged, its own distance is kept. -/
theorem mem_distances_foldl_add_of_not_flagged (h : ∀ x ∈ o :: os, x.distance ≠ none)
    (hflagged : o.flagged = false) (hd : o.distance = some d) :
    d ∈ ((o :: os).foldl add ∅).distances := by
  rw [mem_distances_foldl_add h, List.takeWhile_cons_of_pos (by simp [hflagged])]
  exact .inr ⟨FlagSet.not_mem_empty _, o, List.mem_cons_self, hd⟩

end KindRecord

/-! ## Updates in any order -/

namespace DependenceRecord

variable {r : DependenceRecord} {us vs : List Occurrence} {o o' : Occurrence} {k : CarriedKind}

/-- Some occurrence of the kind `k` has no distance, or all of them are flagged, or none is. -/
def Settled (us : List Occurrence) (k : CarriedKind) : Prop :=
  (∃ o ∈ us, k ∈ o.kinds ∧ o.distance = none)
    ∨ ∀ o ∈ us, ∀ o' ∈ us, k ∈ o.kinds → k ∈ o'.kinds → o.flagged = o'.flagged

/-- The same for all kinds of a record, each settled. -/
theorem foldl_add_perm (hperm : vs.Perm us) (h : ∀ k, Settled us k) :
    vs.foldl add ∅ = us.foldl add ∅ := by
  refine ext (FlagSet.ext fun k => Bool.eq_iff_iff.mpr ?_) fun k => ?_
  · rw [← FlagSet.mem_def, ← FlagSet.mem_def, mem_kinds_foldl_add, mem_kinds_foldl_add]
    simp only [hperm.mem_iff]
  · rw [details_foldl_add, details_foldl_add, details_empty]
    refine (KindRecord.foldl_add_perm (hperm.symm.filter _) ?_).symm
    refine (h k).imp ?_ fun huniform => ?_
    · rintro ⟨o, ho, hk, hnone⟩
      exact ⟨o, List.mem_filter.mpr ⟨ho, decide_eq_true hk⟩, hnone⟩
    · intro o ho o' ho'
      obtain ⟨ho, hk⟩ := List.mem_filter.mp ho
      obtain ⟨ho', hk'⟩ := List.mem_filter.mp ho'
      exact huniform o ho o' ho' (of_decide_eq_true hk) (of_decide_eq_true hk')

/-- The first occurrence of a kind is the first of those that leave its details. -/
theorem details_foldl_add_cons (h : k ∈ o.kinds) :
    ((o :: us).foldl add ∅).details k
      = (o :: us.filter (k ∈ ·.kinds)).foldl KindRecord.add ∅ := by
  rw [details_foldl_add, details_empty, List.filter_cons_of_pos (by simpa using h)]

/-- The first occurrence of a kind decides whether distances are kept, if all occurrences of the
kind have one and some are flagged and others are not. -/
theorem exists_perm_ne (h : ¬ Settled us k) :
    ∃ vs : List Occurrence, vs.Perm us ∧ vs.foldl add ∅ ≠ us.foldl add ∅ := by
  obtain ⟨hknown, hmixed⟩ := not_or.mp h
  obtain ⟨f, hf, u, hu, hfk, huk, hflagged, hfree⟩ : ∃ f ∈ us, ∃ u ∈ us, k ∈ f.kinds ∧ k ∈ u.kinds
      ∧ f.flagged = true ∧ u.flagged = false := by
    refine Classical.byContradiction fun hnone => hmixed fun o ho o' ho' hk hk' => ?_
    cases hfo : o.flagged <;> cases hfo' : o'.flagged
    · rfl
    · exact absurd ⟨o', ho', o, ho, hk', hk, hfo', hfo⟩ hnone
    · exact absurd ⟨o, ho, o', ho', hk, hk', hfo, hfo'⟩ hnone
    · rfl
  have hdistance (o : Occurrence) (ho : o ∈ us) (hk : k ∈ o.kinds) :
      ∀ x ∈ o :: (us.erase o).filter (k ∈ ·.kinds), x.distance ≠ none := by
    intro x hx hnone
    rcases List.mem_cons.mp hx with rfl | hx
    · exact hknown ⟨x, ho, hk, hnone⟩
    · obtain ⟨hx, hxk⟩ := List.mem_filter.mp hx
      exact hknown ⟨x, List.mem_of_mem_erase hx, of_decide_eq_true hxk, hnone⟩
  -- With the flagged one in front no distance is kept, and with the other one in front its own is.
  have hempty : (((f :: us.erase f).foldl add ∅).details k).distances = ∅ := by
    rw [details_foldl_add_cons hfk]
    exact KindRecord.distances_foldl_add_of_flagged (hdistance f hf hfk) hflagged
  obtain ⟨d, hd⟩ := Option.ne_none_iff_exists'.mp (hdistance u hu huk u List.mem_cons_self)
  have hkept : d ∈ (((u :: us.erase u).foldl add ∅).details k).distances := by
    rw [details_foldl_add_cons huk]
    exact KindRecord.mem_distances_foldl_add_of_not_flagged (hdistance u hu huk) hfree hd
  by_cases hsame : (f :: us.erase f).foldl add ∅ = us.foldl add ∅
  · refine ⟨u :: us.erase u, (List.perm_cons_erase hu).symm, fun hsame' => ?_⟩
    rw [hsame', ← hsame, hempty] at hkept
    exact SortedSet.not_mem_empty d hkept
  · exact ⟨f :: us.erase f, (List.perm_cons_erase hf).symm, hsame⟩

/-- The order of occurrences never matters exactly if every kind is settled. -/
theorem perm_iff :
    (∀ vs : List Occurrence, vs.Perm us → vs.foldl add ∅ = us.foldl add ∅) ↔
      ∀ k, Settled us k := by
  refine ⟨fun h k => Classical.byContradiction fun hk => ?_, fun h vs hperm => foldl_add_perm hperm h⟩
  obtain ⟨vs, hperm, hne⟩ := exists_perm_ne hk
  exact hne (h vs hperm)

end DependenceRecord

/-! ## Updates and merges of several records -/

/-- A change to one of several records. -/
inductive RecordOp (ι : Type) where
  /-- Adds an occurrence to the record `i`. -/
  | update (i : ι) (o : Occurrence)
  /-- Folds the record `j` into the record `i`. -/
  | merge (i j : ι)

namespace RecordOp

variable {ι : Type} [DecidableEq ι] {s : ι → DependenceRecord} {op : RecordOp ι}
  {ops : List (RecordOp ι)} {i : ι} {k : CarriedKind}

/-- Makes a change. -/
def apply (s : ι → DependenceRecord) : RecordOp ι → ι → DependenceRecord
  | .update i o => fun l => if l = i then (s i).add o else s l
  | .merge i j => fun l => if l = i then (s i).merge (s j) else s l

/-- The records after some changes, all being empty at first. -/
def run (ops : List (RecordOp ι)) : ι → DependenceRecord := ops.foldl apply fun _ => ∅

/-- The change leaves no distances of the kind `k` in the record `i` if its distance is unknown. -/
def Clears (i : ι) (k : CarriedKind) : RecordOp ι → Prop
  | .update l o => l = i ∧ k ∈ o.kinds ∧ o.distance = none
  | .merge l _ => l = i

/-- The change flags the kind `k` of the record `i`, and the distances it has are kept. -/
def Spoils (s : ι → DependenceRecord) (i : ι) (k : CarriedKind) : RecordOp ι → Prop
  | .update l o => l = i ∧ k ∈ o.kinds ∧ ((s i).details k).SpoiledBy o
  | .merge _ _ => False

/-- One change makes a kind inconsistent by spoiling it, or leaves it so by not clearing it. -/
theorem inconsistent_apply :
    ((apply s op i).details k).Inconsistent ↔
      op.Spoils s i k ∨ ((s i).details k).Inconsistent ∧ ¬ op.Clears i k := by
  cases op with
  | update l o =>
    by_cases hl : i = l
    · subst hl
      by_cases hk : k ∈ o.kinds
      · simp [apply, Spoils, Clears, DependenceRecord.details_add, hk, KindRecord.inconsistent_add]
      · simp [apply, Spoils, Clears, DependenceRecord.details_add, hk]
    · simp [apply, Spoils, Clears, hl, Ne.symm hl]
  | merge l j =>
    by_cases hl : i = l
    · subst hl
      simp [apply, Spoils, Clears, DependenceRecord.details_merge, KindRecord.not_inconsistent_merge]
    · simp [apply, Spoils, Clears, hl, Ne.symm hl]

/-- A kind is inconsistent exactly if a change spoiled it and none has cleared it since. -/
theorem inconsistent_run :
    ((run ops i).details k).Inconsistent ↔ ∃ before op after, ops = before ++ op :: after
      ∧ op.Spoils (run before) i k ∧ ∀ later ∈ after, ¬ later.Clears i k := by
  induction ops using List.reverseRecOn with
  | nil =>
    constructor
    · intro h
      exact absurd h.1 (DependenceRecord.details_empty k ▸ FlagSet.not_mem_empty _)
    · rintro ⟨before, op, after, hops, -⟩
      cases before <;> cases hops
  | append_singleton ops op ih =>
    have hrun : run (ops ++ [op]) = apply (run ops) op := List.foldl_append
    rw [hrun, inconsistent_apply, ih]
    constructor
    · rintro (hspoils | ⟨⟨before, spoiler, after, rfl, hspoils, hafter⟩, hclears⟩)
      · exact ⟨ops, op, [], rfl, hspoils, fun _ h => absurd h List.not_mem_nil⟩
      · refine ⟨before, spoiler, after ++ [op], List.append_assoc .., hspoils, ?_⟩
        exact List.forall_mem_append.mpr ⟨hafter, List.forall_mem_singleton.mpr hclears⟩
    · rintro ⟨before, spoiler, after, hops, hspoils, hafter⟩
      -- The last change is the one that spoils, or one of those since.
      rcases List.eq_nil_or_concat' after with rfl | ⟨after, last, rfl⟩
      · obtain ⟨rfl, heq⟩ := List.append_inj' hops rfl
        obtain ⟨rfl, -⟩ := List.cons.inj heq
        exact .inl hspoils
      · have hsplit : ops ++ [op] = (before ++ spoiler :: after) ++ [last] := by
          rw [hops, List.append_assoc]
          rfl
        obtain ⟨rfl, heq⟩ := List.append_inj' hsplit rfl
        obtain ⟨rfl, -⟩ := List.cons.inj heq
        obtain ⟨hafter, hclears⟩ := List.forall_mem_append.mp hafter
        exact .inr ⟨⟨before, spoiler, after, rfl, hspoils, hafter⟩,
          hclears _ List.mem_cons_self⟩

end RecordOp

/-- Of a kind whose distance is unknown a record keeps distances exactly if it had some when an
update first flagged the kind and gave one more distance, and since then no merge into the record
and no update without distance came. Updates may come in any order exactly if for each kind one of
them has no distance, or the updates of that kind agree on whether they are flagged. -/
theorem inconsistent_iff_and_perm_iff {ι : Type} [DecidableEq ι] (ops : List (RecordOp ι)) (i : ι)
    (k : CarriedKind) (us : List Occurrence) :
    (((RecordOp.run ops i).details k).Inconsistent ↔
        ∃ (before : List (RecordOp ι)) (op : RecordOp ι) (after : List (RecordOp ι)),
          ops = before ++ op :: after ∧ op.Spoils (RecordOp.run before) i k
            ∧ ∀ later ∈ after, ¬ later.Clears i k)
      ∧ ((∀ vs : List Occurrence, vs.Perm us →
          vs.foldl DependenceRecord.add ∅ = us.foldl DependenceRecord.add ∅) ↔
            ∀ k, DependenceRecord.Settled us k) :=
  ⟨RecordOp.inconsistent_run, DependenceRecord.perm_iff⟩

/-! An occurrence with a distance, and one that has a distance and is flagged all the same. -/

/-- A flow dependence over one iteration, not flagged as of unknown distance. -/
def knownFlow : Occurrence := ⟨{.flow}, {.loadStore}, some (.constant 1)⟩

/-- A flow dependence over two iterations, flagged as of unknown distance all the same. -/
def flaggedFlow : Occurrence := ⟨{.flow}, {.unknownDistance}, some (.constant 2)⟩

/-- In this order the distance of the first is kept, and in the other none is. -/
theorem inconsistent_knownFlow_flaggedFlow :
    ((RecordOp.run [.update () knownFlow, .update () flaggedFlow] ()).details .flow).Inconsistent
      ∧ [knownFlow, flaggedFlow].foldl DependenceRecord.add ∅
        ≠ [flaggedFlow, knownFlow].foldl DependenceRecord.add ∅ := by
  decide

end Privatization
