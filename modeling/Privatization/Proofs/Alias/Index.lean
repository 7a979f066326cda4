import Privatization.Proofs.Alias.Linked
import Privatization.Proofs.Alias.Tightest

/-!
# Looking memory up by pointer

A tree that is finished gets an index: under each pointer stand the memories that list it, in the
order they were added, each as often as it lists the pointer. A look-up goes through what stands
under its pointer alone. It finds what a look-up among all memories finds
(`Records.find?_records`).
-/

namespace Privatization

namespace AliasTree

namespace Records

/-- Numbers of memories under pointers. -/
abbrev Index : Type := OrderedMap ValueId (List EstimateId)

/-- Enters a memory under a pointer, behind what stands there. -/
def enter (e : EstimateId) (index : Index) (p : ValueId) : Index := index.update p [] (· ++ [e])

/-- Enters the memory with number `i` under its pointers, one after another. -/
def enterAll (index : Index) (x : EstimateRecord × Nat) : Index :=
  x.1.pointers.foldl (enter ⟨x.2⟩) index

variable (r : Records)

/-- All memories under their pointers. -/
def index : Index := r.estimates.toList.zipIdx.foldl enterAll ∅

/-- The size of a memory, if it is known. -/
def size (e : EstimateId) : Option Nat := (r.estimates[e.index]?).bind (·.size)

/-- Size for comparison: an unknown one counts as the largest. -/
def rank (e : EstimateId) : Nat := (r.size e).getD addressLimit

/-- Whether a memory under the pointer of `loc` is large enough for it. -/
def covers (loc : MemoryLocation) (e : EstimateId) : Bool :=
  (MemoryLocation.mk loc.ptr (r.size e)).covers loc

/-- The smallest memory under the pointer of `loc` that is large enough; of several, the first. -/
def find? (loc : MemoryLocation) : Option EstimateId := do
  let es ← r.index.get? loc.ptr
  firstLeast r.rank (es.filter (r.covers loc))

/-! ## What stands in the index -/

/-- What stands under a pointer, nothing if the pointer has no entry. -/
def Index.under (index : Index) (p : ValueId) : List EstimateId := (index.get? p).getD []

variable {r} {index : Index} {e : EstimateId} {p q : ValueId}

theorem under_enter : (enter e index p).under q = index.under q ++ if p = q then [e] else [] := by
  unfold enter Index.under
  by_cases h : q = p
  · subst h
    rw [OrderedMap.get?_update_self, if_pos rfl]
    rfl
  · rw [OrderedMap.get?_update_of_ne _ _ _ h, if_neg (Ne.symm h), List.append_nil]

theorem under_foldl_enter {ps : List ValueId} :
    (ps.foldl (enter e) index).under q = index.under q ++ List.replicate (ps.count q) e := by
  induction ps generalizing index with
  | nil => rw [List.foldl_nil, List.count_nil, List.replicate_zero, List.append_nil]
  | cons p ps ih =>
    rw [List.foldl_cons, ih, under_enter, List.append_assoc, List.count_cons]
    by_cases h : p = q
    · rw [if_pos h, if_pos (beq_iff_eq.mpr h), List.replicate_succ]
      rfl
    · rw [if_neg h, if_neg (mt beq_iff_eq.mp h)]
      rfl

theorem under_foldl_enterAll {xs : List (EstimateRecord × Nat)} :
    (xs.foldl enterAll index).under q
      = index.under q ++ xs.flatMap fun x => List.replicate (x.1.pointers.count q) ⟨x.2⟩ := by
  induction xs generalizing index with
  | nil => rw [List.foldl_nil, List.flatMap_nil, List.append_nil]
  | cons x xs ih =>
    rw [List.foldl_cons, ih, enterAll, under_foldl_enter, List.append_assoc, List.flatMap_cons]

/-- Under a pointer stands each memory as often as it lists the pointer. -/
theorem under_index : r.index.under q = r.estimates.toList.zipIdx.flatMap fun x =>
    List.replicate (x.1.pointers.count q) ⟨x.2⟩ :=
  under_foldl_enterAll

theorem mem_under_index : e ∈ r.index.under q
    ↔ ∃ m, r.estimates[e.index]? = some m ∧ q ∈ m.pointers := by
  rw [under_index, List.mem_flatMap]
  constructor
  · rintro ⟨⟨m, i⟩, hm, he⟩
    obtain ⟨hcount, rfl⟩ := List.mem_replicate.mp he
    refine ⟨m, ?_, List.count_pos_iff.mp (Nat.pos_of_ne_zero hcount)⟩
    rw [← Array.getElem?_toList]
    exact List.mk_mem_zipIdx_iff_getElem?.mp hm
  · rintro ⟨m, hm, hq⟩
    rw [← Array.getElem?_toList] at hm
    refine ⟨(m, e.index), List.mk_mem_zipIdx_iff_getElem?.mpr hm, List.mem_replicate.mpr ⟨?_, rfl⟩⟩
    exact Nat.ne_of_gt (List.count_pos_iff.mpr hq)

/-- Under a pointer earlier memories stand before later ones. -/
theorem under_index_pairwise : (r.index.under q).Pairwise fun d e => d.index ≤ e.index := by
  have hplaces : r.estimates.toList.zipIdx.Pairwise fun x y => x.2 < y.2 := by
    rw [← List.pairwise_map, List.zipIdx_map_snd]
    exact List.pairwise_lt_range'
  rw [under_index, List.pairwise_flatMap]
  refine ⟨fun x _ => List.pairwise_replicate.mpr (.inr (Nat.le_refl _)), hplaces.imp ?_⟩
  intro x y hlt d hd e he
  obtain rfl := List.eq_of_mem_replicate hd
  obtain rfl := List.eq_of_mem_replicate he
  exact Nat.le_of_lt hlt

/-! ## What a look-up finds -/

theorem find?_eq (loc : MemoryLocation) :
    r.find? loc = firstLeast r.rank ((r.index.under loc.ptr).filter (r.covers loc)) := by
  unfold find? Index.under
  cases r.index.get? loc.ptr <;> rfl

variable {t : AliasTree}

theorem size_records (t : AliasTree) (e : EstimateId) :
    t.records.size e = (t.estimate? e).bind (·.size) := by
  rw [size, records_estimates_get?, Option.bind_map]
  rfl

theorem rank_records (t : AliasTree) : t.records.rank = t.rank := by
  funext e
  rw [rank, size_records, AliasTree.rank]
  cases t.estimate? e <;> rfl

theorem mem_filter_under_records {loc : MemoryLocation} :
    e ∈ (t.records.index.under loc.ptr).filter (t.records.covers loc) ↔ e ∈ t.candidates loc := by
  rw [List.mem_filter, mem_under_index, mem_candidates_iff, covers, size_records,
    records_estimates_get?]
  constructor
  · rintro ⟨⟨m, hm, hp⟩, hcovers⟩
    obtain ⟨n, hn, rfl⟩ := Option.map_eq_some_iff.mp hm
    refine ⟨n, hn, hp, ?_⟩
    rwa [estimate?, hn] at hcovers
  · rintro ⟨n, hn, hp, hcovers⟩
    refine ⟨⟨_, Option.map_eq_some_iff.mpr ⟨n, hn, rfl⟩, hp⟩, ?_⟩
    rwa [hn]

/-- What is found through the index is what is found among all memories. -/
theorem find?_records (t : AliasTree) (loc : MemoryLocation) :
    t.records.find? loc = t.find? loc := by
  rw [find?_eq, rank_records]
  exact firstLeast_congr estimate_eq_of_index (under_index_pairwise.filter _)
    (t.candidates_pairwise loc) fun _ => mem_filter_under_records

end Records

/-- In every tree that additions build a look-up finds the tightest memory, and it does so through
the index of the records that were built. -/
theorem lookup_tightest (additions : List Addition) :
    (ofAdditions additions).Tightest (ofAdditions additions).find?
      ∧ (Records.built additions).find? = (ofAdditions additions).find? := by
  refine ⟨tightest_find? _, ?_⟩
  rw [Records.built_eq]
  exact funext (Records.find?_records _)

/-- The second of three memories lists the pointer twice and is as small as the first. -/
example : [some 8, some 9, none].map (fun size => (Records.built [
      .estimate top [⟨0⟩] (some 8) 0 none, .estimate top [⟨0⟩, ⟨0⟩] (some 8) 0 none,
      .estimate top [⟨0⟩] none 0 none]).find? ⟨⟨0⟩, size⟩)
    = [some ⟨0⟩, some ⟨2⟩, some ⟨2⟩] := by decide

end AliasTree

end Privatization
