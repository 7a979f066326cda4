import Privatization.Dependence.Carried

/-!
# Dependence records

What a loop knows about the dependences on one piece of memory: per kind, the circumstances they
were seen under and the distances they have. Records of the pieces of a memory merge into the record
of the whole.
-/

namespace Privatization

/-- A circumstance under which a dependence was recorded. -/
inductive DependenceMark where
  /-- The dependence may not exist. -/
  | may
  /-- One side is in the loop header. -/
  | headerAccess
  | loadStore
  | call
  | unknown
  /-- Some occurrence has no known distance; no distance is kept then. -/
  | unknownDistance
  deriving DecidableEq

instance : Enumeration DependenceMark where
  card := 6
  all := [.may, .headerAccess, .loadStore, .call, .unknown, .unknownDistance]
  index
    | .may => 0
    | .headerAccess => 1
    | .loadStore => 2
    | .call => 3
    | .unknown => 4
    | .unknownDistance => 5
  index_lt a := by cases a <;> decide
  index_inj a b h := by cases a <;> cases b <;> simp_all
  index_surj i h := by
    match i, h with
    | 0, _ => exact ⟨.may, rfl⟩
    | 1, _ => exact ⟨.headerAccess, rfl⟩
    | 2, _ => exact ⟨.loadStore, rfl⟩
    | 3, _ => exact ⟨.call, rfl⟩
    | 4, _ => exact ⟨.unknown, rfl⟩
    | 5, _ => exact ⟨.unknownDistance, rfl⟩
  mem_all a := by cases a <;> decide

namespace DependenceMark

/-- The name of a mark in reports. -/
def keyword : DependenceMark → String
  | .may => "may"
  | .headerAccess => "header access"
  | .loadStore => "load/store"
  | .call => "call"
  | .unknown => "unknown"
  | .unknownDistance => "unknown distance"

end DependenceMark

/-- A set of marks. -/
abbrev DependenceMarks := FlagSet DependenceMark

/-- What is known about one kind of dependence on one piece of memory. -/
structure KindRecord where
  marks : DependenceMarks := ∅
  distances : SortedSet Distance := ∅
  deriving DecidableEq

namespace KindRecord

instance : EmptyCollection KindRecord := ⟨{}⟩

/-- Adds an occurrence. One without distance makes the distance unknown for good. -/
def update (r : KindRecord) (marks : DependenceMarks) (distance : Option Distance) : KindRecord :=
  let marks := r.marks ∪ marks
  match distance with
  | some d =>
    { marks,
      distances := if marks.has .unknownDistance then r.distances else r.distances.insert d }
  | none => { marks := marks ∪ {.unknownDistance}, distances := ∅ }

/-- Adds every occurrence of another record. -/
def merge (r s : KindRecord) : KindRecord :=
  let marks := r.marks ∪ s.marks
  { marks, distances := if marks.has .unknownDistance then ∅ else r.distances ∪ s.distances }

end KindRecord

/-- The dependences recorded for one piece of memory. -/
structure DependenceRecord where
  kinds : CarriedKinds := ∅
  flow : KindRecord := ∅
  anti : KindRecord := ∅
  output : KindRecord := ∅
  deriving DecidableEq

namespace DependenceRecord

instance : EmptyCollection DependenceRecord := ⟨{}⟩

/-- The details kept for a kind, recorded or not. -/
def details (r : DependenceRecord) : CarriedKind → KindRecord
  | .flow => r.flow
  | .anti => r.anti
  | .output => r.output

/-- The details of a kind, if it was recorded. -/
def kind? (r : DependenceRecord) (k : CarriedKind) : Option KindRecord :=
  if r.kinds.has k then some (r.details k) else none

/-- The details of the one kind in `ks`, if `ks` is a single kind and was recorded. -/
def only? (r : DependenceRecord) (ks : CarriedKinds) : Option KindRecord :=
  match ks.toList with
  | [k] => r.kind? k
  | _ => none

/-- Adds an occurrence of each of `kinds`. -/
def update (r : DependenceRecord) (kinds : CarriedKinds) (marks : DependenceMarks)
    (distance : Option Distance) : DependenceRecord :=
  let on (k : CarriedKind) : KindRecord :=
    if kinds.has k then (r.details k).update marks distance else r.details k
  { kinds := r.kinds ∪ kinds, flow := on .flow, anti := on .anti, output := on .output }

/-- Folds in the record of a piece of the same memory. -/
def merge (r s : DependenceRecord) : DependenceRecord :=
  { kinds := r.kinds ∪ s.kinds
    flow := r.flow.merge s.flow
    anti := r.anti.merge s.anti
    output := r.output.merge s.output }

end DependenceRecord

end Privatization
