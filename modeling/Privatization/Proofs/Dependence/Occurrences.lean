import Mathlib.Data.List.TakeWhile
import Privatization.Dependence.Record

/-!
# Records as lists of occurrences

A record is read kind by kind: the details of a kind are what the occurrences of that kind leave, and
the others do not matter (`details_foldl_add`). Their marks add up (`mem_marks_foldl_add`). One
occurrence without distance leaves no distance, wherever it stands (`distances_foldl_add_of_none`);
where every occurrence has one, those in front of the first mark of an unknown distance are kept
(`mem_distances_foldl_add`).
-/

namespace Privatization

/-- Dependences of some kinds, seen once. -/
structure Occurrence where
  kinds : CarriedKinds
  marks : DependenceMarks
  distance : Option Distance
  deriving DecidableEq

/-- The occurrence says of itself that its distance is unknown. -/
def Occurrence.flagged (o : Occurrence) : Bool := o.marks.has .unknownDistance

namespace KindRecord

variable {r : KindRecord} {o : Occurrence} {os : List Occurrence} {mark : DependenceMark}
  {d : Distance}

/-- Adds an occurrence, of this kind among others. -/
def add (r : KindRecord) (o : Occurrence) : KindRecord := r.update o.marks o.distance

/-- The distance of some occurrence is marked as unknown. -/
def Unknown (r : KindRecord) : Prop := .unknownDistance ∈ r.marks

instance : Decidable r.Unknown := inferInstanceAs (Decidable (_ ∈ r.marks))

/-- Two records with the same marks and distances are equal. -/
theorem ext {r s : KindRecord} (hmarks : r.marks = s.marks) (hdistances : r.distances = s.distances) :
    r = s := by
  obtain ⟨marks, distances⟩ := r
  obtain rfl : marks = s.marks := hmarks
  obtain rfl : distances = s.distances := hdistances
  rfl

/-- An occurrence adds its marks, and without distance the mark of an unknown one. -/
theorem mem_marks_add :
    mark ∈ (r.add o).marks ↔
      mark ∈ r.marks ∨ mark ∈ o.marks ∨ mark = .unknownDistance ∧ o.distance = none := by
  obtain ⟨kinds, marks, distance⟩ := o
  cases distance <;> simp [add, update, FlagSet.mem_union, FlagSet.mem_singleton, or_assoc]

/-- After an occurrence some distance is unknown if one was, if the occurrence says so, or if it has
none. -/
theorem unknown_add : (r.add o).Unknown ↔ r.Unknown ∨ o.flagged = true ∨ o.distance = none :=
  mem_marks_add.trans (or_congr_right (or_congr_right (and_iff_right rfl)))

/-- An occurrence without distance leaves no distances. -/
theorem distances_add_of_none (h : o.distance = none) : (r.add o).distances = ∅ := by
  unfold add update
  rw [h]

/-- A distance is added as long as none is unknown. -/
theorem distances_add_of_some (h : o.distance = some d) :
    (r.add o).distances =
      if r.Unknown ∨ o.flagged = true then r.distances else r.distances.insert d := by
  have hunknown : (r.marks ∪ o.marks).has .unknownDistance = true ↔ r.Unknown ∨ o.flagged = true :=
    FlagSet.mem_union
  unfold add update
  rw [h]
  simp only [hunknown]

/-- The marks of all occurrences add up, and one without distance marks it as unknown. -/
theorem mem_marks_foldl_add :
    mark ∈ (os.foldl add r).marks ↔
      mark ∈ r.marks ∨ (∃ o ∈ os, mark ∈ o.marks)
        ∨ mark = .unknownDistance ∧ ∃ o ∈ os, o.distance = none := by
  induction os generalizing r with
  | nil => simp
  | cons o os ih =>
    rw [List.foldl_cons, ih, mem_marks_add]
    simp only [List.mem_cons, or_and_right, exists_or, exists_eq_left]
    grind

/-- Once a distance is unknown and none is kept, none is kept again. -/
theorem distances_foldl_add_of_unknown (h : r.Unknown) (hempty : r.distances = ∅) :
    (os.foldl add r).distances = ∅ := by
  induction os generalizing r with
  | nil => exact hempty
  | cons o os ih =>
    refine ih (unknown_add.mpr (.inl h)) ?_
    cases ho : o.distance with
    | none => exact distances_add_of_none ho
    | some d => rw [distances_add_of_some ho, if_pos (.inl h), hempty]

/-- One occurrence without distance leaves none, before it and after. -/
theorem distances_foldl_add_of_none (h : ∃ o ∈ os, o.distance = none) :
    (os.foldl add r).distances = ∅ := by
  obtain ⟨o, ho, hnone⟩ := h
  obtain ⟨before, after, rfl⟩ := List.append_of_mem ho
  rw [List.foldl_append, List.foldl_cons]
  -- That occurrence empties the record, and what comes behind adds nothing to it.
  exact distances_foldl_add_of_unknown (unknown_add.mpr (.inr (.inr hnone)))
    (distances_add_of_none hnone)

/-- Where every occurrence has a distance, those in front of the first that is flagged are kept. -/
theorem mem_distances_foldl_add (h : ∀ o ∈ os, o.distance ≠ none) :
    d ∈ (os.foldl add r).distances ↔
      d ∈ r.distances
        ∨ ¬ r.Unknown ∧ ∃ o ∈ os.takeWhile (!·.flagged), o.distance = some d := by
  induction os generalizing r with
  | nil => simp
  | cons o os ih =>
    obtain ⟨ho, hos⟩ := List.forall_mem_cons.mp h
    obtain ⟨e, he⟩ := Option.ne_none_iff_exists'.mp ho
    rw [List.foldl_cons, ih hos, unknown_add, distances_add_of_some he]
    -- Once the record is marked, nothing is added; before that only a flagged occurrence ends the
    -- run.
    by_cases hr : r.Unknown
    · simp [hr]
    · cases hflagged : o.flagged with
      | true => simp [hflagged]
      | false => simp [hflagged, hr, he, eq_comm, or_assoc, or_left_comm]

end KindRecord

namespace DependenceRecord

variable {r : DependenceRecord} {o : Occurrence} {os : List Occurrence} {k : CarriedKind}

/-- Adds an occurrence. -/
def add (r : DependenceRecord) (o : Occurrence) : DependenceRecord :=
  r.update o.kinds o.marks o.distance

/-- The empty record has no details of any kind. -/
@[simp] theorem details_empty (k : CarriedKind) : (∅ : DependenceRecord).details k = ∅ := by
  cases k <;> rfl

/-- An occurrence adds its kinds. -/
theorem kinds_add : (r.add o).kinds = r.kinds ∪ o.kinds := rfl

/-- An occurrence changes the details of its own kinds only. -/
theorem details_add (r : DependenceRecord) (o : Occurrence) (k : CarriedKind) :
    (r.add o).details k = if k ∈ o.kinds then (r.details k).add o else r.details k := by
  cases k <;> rfl

/-- Records are merged kind by kind. -/
theorem details_merge (r s : DependenceRecord) (k : CarriedKind) :
    (r.merge s).details k = (r.details k).merge (s.details k) := by
  cases k <;> rfl

/-- Two records with the same kinds and details are equal. -/
theorem ext {r s : DependenceRecord} (hkinds : r.kinds = s.kinds)
    (hdetails : ∀ k, r.details k = s.details k) : r = s := by
  obtain ⟨kinds, flow, anti, output⟩ := r
  obtain ⟨kinds', flow', anti', output'⟩ := s
  obtain rfl : kinds = kinds' := hkinds
  obtain rfl : flow = flow' := hdetails .flow
  obtain rfl : anti = anti' := hdetails .anti
  obtain rfl : output = output' := hdetails .output
  rfl

/-- The kinds of all occurrences add up. -/
theorem mem_kinds_foldl_add :
    k ∈ (os.foldl add r).kinds ↔ k ∈ r.kinds ∨ ∃ o ∈ os, k ∈ o.kinds := by
  induction os generalizing r with
  | nil => simp
  | cons o os ih =>
    rw [List.foldl_cons, ih, kinds_add, FlagSet.mem_union, or_assoc]
    simp only [List.mem_cons, or_and_right, exists_or, exists_eq_left]

/-- The details of a kind are what its own occurrences leave. -/
theorem details_foldl_add (os : List Occurrence) (r : DependenceRecord) (k : CarriedKind) :
    (os.foldl add r).details k
      = (os.filter (k ∈ ·.kinds)).foldl KindRecord.add (r.details k) := by
  rw [List.foldl_filter]
  induction os generalizing r with
  | nil => rfl
  | cons o os ih =>
    rw [List.foldl_cons, ih, details_add]
    simp

/-- The record made of some occurrences, if there are any. -/
def ofOccurrences? (os : List Occurrence) : Option DependenceRecord :=
  if os.isEmpty then none else some (os.foldl add ∅)

/-- One more occurrence is added to the record, which is empty if there was none. -/
theorem ofOccurrences?_append (os : List Occurrence) (o : Occurrence) :
    ofOccurrences? (os ++ [o]) = some (((ofOccurrences? os).getD ∅).add o) := by
  cases os <;> simp [ofOccurrences?, List.foldl_append]

/-- There is a record if there is an occurrence. -/
theorem exists_ofOccurrences?_eq_some : (∃ r, ofOccurrences? os = some r) ↔ ∃ o, o ∈ os := by
  cases os <;> simp [ofOccurrences?]

/-- The record holds a kind if some occurrence is of that kind. -/
theorem exists_ofOccurrences?_and_mem_kinds :
    (∃ r, ofOccurrences? os = some r ∧ k ∈ r.kinds) ↔ ∃ o ∈ os, k ∈ o.kinds := by
  have hmem : k ∈ (os.foldl add ∅).kinds ↔ ∃ o ∈ os, k ∈ o.kinds :=
    mem_kinds_foldl_add.trans (or_iff_right (FlagSet.not_mem_empty k))
  cases os with
  | nil => simp [ofOccurrences?]
  | cons o os => simpa [ofOccurrences?] using hmem

/-- A record is what its occurrences leave. -/
theorem eq_of_ofOccurrences? (h : ofOccurrences? os = some r) : os.foldl add ∅ = r := by
  unfold ofOccurrences? at h
  split at h
  · cases h
  · exact Option.some.inj h

end DependenceRecord

end Privatization
