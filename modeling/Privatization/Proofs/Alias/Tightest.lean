import Privatization.Alias.Lookup
import Privatization.Proofs.Memory.Answers

/-!
# Lookup finds the tightest memory

Of the memories that span a location the look-up takes one of least size, and of several the one
added first. So it finds something whenever there is something to find, and a smaller part of a
location is found in memory that is not larger (`find?_part`).
-/

namespace Privatization

namespace AliasTree

/-! ## The first least item of a list -/

section FirstLeast

variable {α : Type} {rank place : α → Nat} {as bs : List α} {a b : α}

/-- An item of least rank. No item of its rank stands at an earlier place. -/
structure IsFirstLeast (rank place : α → Nat) (as : List α) (a : α) : Prop where
  mem : a ∈ as
  least : ∀ b ∈ as, rank a < rank b ∨ (rank a = rank b ∧ place a ≤ place b)

/-- If places tell items apart, there is one first least item at most. -/
theorem IsFirstLeast.eq (hinj : ∀ a b, place a = place b → a = b)
    (ha : IsFirstLeast rank place as a) (hb : IsFirstLeast rank place as b) : a = b := by
  have hab := ha.least b hb.mem
  have hba := hb.least a ha.mem
  exact hinj a b (by omega)

/-- Only an empty list has none. -/
theorem firstLeast_eq_none_iff : firstLeast rank as = none ↔ as = [] := by
  cases as with
  | nil => exact iff_of_true rfl rfl
  | cons a as =>
    refine iff_of_false (fun h => ?_) (List.cons_ne_nil a as)
    rw [firstLeast] at h
    split at h
    · cases h
    · split at h <;> cases h

/-- What is found in a list in order of place is a first least item. -/
theorem isFirstLeast_of_firstLeast (hsorted : as.Pairwise fun a b => place a ≤ place b)
    (h : firstLeast rank as = some a) : IsFirstLeast rank place as a := by
  induction as generalizing a with
  | nil => cases h
  | cons c as ih =>
    obtain ⟨hc, hsorted⟩ := List.pairwise_cons.mp hsorted
    rw [firstLeast] at h
    split at h
    next hnone =>
      cases h
      obtain rfl := firstLeast_eq_none_iff.mp hnone
      refine ⟨List.mem_cons_self, fun b hb => ?_⟩
      obtain rfl := List.mem_singleton.mp hb
      exact .inr ⟨rfl, Nat.le_refl _⟩
    next b hb =>
      obtain ⟨hmem, hleast⟩ := ih hsorted hb
      split at h
      -- The item of the tail is taken only if its rank is lower, so the earlier one wins a draw.
      next hlt =>
        cases h
        refine ⟨List.mem_cons_of_mem c hmem, fun d hd => ?_⟩
        obtain rfl | hd := List.mem_cons.mp hd
        · exact .inl hlt
        · exact hleast d hd
      next hle =>
        cases h
        refine ⟨List.mem_cons_self, fun d hd => ?_⟩
        obtain rfl | hd := List.mem_cons.mp hd
        · exact .inr ⟨rfl, Nat.le_refl _⟩
        · have hbd := hleast d hd
          have hcd := hc d hd
          omega

/-- In a list in order of place, each place taken by one item, the first least item is found. -/
theorem firstLeast_eq_some_iff (hinj : ∀ a b, place a = place b → a = b)
    (hsorted : as.Pairwise fun a b => place a ≤ place b) :
    firstLeast rank as = some a ↔ IsFirstLeast rank place as a := by
  refine ⟨isFirstLeast_of_firstLeast hsorted, fun ha => ?_⟩
  cases hb : firstLeast rank as with
  | none =>
    obtain rfl := firstLeast_eq_none_iff.mp hb
    cases ha.mem
  | some b => rw [(isFirstLeast_of_firstLeast hsorted hb).eq hinj ha]

/-- How often an item is listed does not matter. -/
theorem firstLeast_congr (hinj : ∀ a b, place a = place b → a = b)
    (has : as.Pairwise fun a b => place a ≤ place b)
    (hbs : bs.Pairwise fun a b => place a ≤ place b) (hmem : ∀ a, a ∈ as ↔ a ∈ bs) :
    firstLeast rank as = firstLeast rank bs := by
  refine Option.ext fun a => ?_
  show firstLeast rank as = some a ↔ firstLeast rank bs = some a
  rw [firstLeast_eq_some_iff hinj has, firstLeast_eq_some_iff hinj hbs]
  constructor
  · exact fun h => ⟨(hmem a).mp h.mem, fun b hb => h.least b ((hmem b).mpr hb)⟩
  · exact fun h => ⟨(hmem a).mpr h.mem, fun b hb => h.least b ((hmem b).mp hb)⟩

end FirstLeast

/-! ## What a look-up finds -/

variable {t : AliasTree} {loc a b : MemoryLocation} {e : EstimateId} {m : Estimate}

/-- The memory `m` of number `e` lists the pointer of `loc` and is large enough for it. -/
structure Spans (t : AliasTree) (loc : MemoryLocation) (e : EstimateId) (m : Estimate) : Prop where
  stored : t.estimate? e = some m
  listed : loc.ptr ∈ m.pointers
  covered : (MemoryLocation.mk loc.ptr m.size).covers loc = true

/-- A memory spans a location if it lists the pointer and has the bytes there. -/
theorem spans_iff : m.spans loc = true
    ↔ loc.ptr ∈ m.pointers ∧ (MemoryLocation.mk loc.ptr m.size).covers loc = true := by
  rw [Estimate.spans, List.any_eq_true]
  constructor
  · rintro ⟨l, hl, hcovers⟩
    obtain ⟨p, hp, rfl⟩ := List.mem_map.mp hl
    obtain rfl : p = loc.ptr := by
      rw [MemoryLocation.covers, Bool.and_eq_true, beq_iff_eq] at hcovers
      exact hcovers.1
    exact ⟨hp, hcovers⟩
  · rintro ⟨hp, hcovers⟩
    exact ⟨_, List.mem_map_of_mem hp, hcovers⟩

/-- The candidates are the memories that span the location. -/
theorem mem_candidates_iff : e ∈ t.candidates loc ↔ ∃ m, t.Spans loc e m := by
  rw [candidates, List.mem_filter, Option.any_eq_true]
  constructor
  · rintro ⟨-, m, hm, hspans⟩
    obtain ⟨hlisted, hcovered⟩ := spans_iff.mp hspans
    exact ⟨m, hm, hlisted, hcovered⟩
  · rintro ⟨m, hm, hlisted, hcovered⟩
    have hlt : e.index < t.estimates.size := (Array.getElem?_eq_some_iff.mp hm).1
    refine ⟨List.mem_map.mpr ⟨e.index, List.mem_range.mpr hlt, rfl⟩, m, hm, ?_⟩
    exact spans_iff.mpr ⟨hlisted, hcovered⟩

/-- A memory is told by its number. -/
theorem estimate_eq_of_index (d e : EstimateId) (h : d.index = e.index) : d = e :=
  congrArg EstimateId.mk h

/-- The candidates of a location are listed in the order they were added. -/
theorem candidates_pairwise (t : AliasTree) (loc : MemoryLocation) :
    (t.candidates loc).Pairwise fun d e => d.index ≤ e.index := by
  refine List.Pairwise.filter _ (List.pairwise_map.mpr ?_)
  exact List.pairwise_lt_range.imp Nat.le_of_lt

/-- The rank of a memory by its number. -/
def rank (t : AliasTree) (e : EstimateId) : Nat :=
  ((t.estimate? e).map Estimate.rank).getD addressLimit

/-- The rank of a number is that of its memory. -/
theorem Spans.rank_eq (h : t.Spans loc e m) : t.rank e = m.rank := by
  rw [rank, h.stored]
  rfl

/-- Every number stands for one memory. -/
theorem Spans.memory_eq {m' : Estimate} (h : t.Spans a e m) (h' : t.Spans b e m') : m = m' :=
  Option.some.inj (h.stored.symm.trans h'.stored)

/-- Nothing is found only where nothing spans the location. -/
theorem find?_eq_none_iff : t.find? loc = none ↔ ∀ e m, ¬t.Spans loc e m := by
  rw [find?, firstLeast_eq_none_iff, List.eq_nil_iff_forall_not_mem]
  simp only [mem_candidates_iff, not_exists]

/-- What is found is the earliest of least size among what spans the location. -/
theorem find?_eq_some_iff : t.find? loc = some e ↔ ∃ m, t.Spans loc e m ∧
    ∀ e' m', t.Spans loc e' m' → m.rank < m'.rank ∨ (m.rank = m'.rank ∧ e.index ≤ e'.index) := by
  show firstLeast t.rank (t.candidates loc) = some e ↔ _
  rw [firstLeast_eq_some_iff estimate_eq_of_index (t.candidates_pairwise loc)]
  constructor
  · rintro ⟨hmem, hleast⟩
    obtain ⟨m, hm⟩ := mem_candidates_iff.mp hmem
    refine ⟨m, hm, fun e' m' hm' => ?_⟩
    rw [← hm.rank_eq, ← hm'.rank_eq]
    exact hleast e' (mem_candidates_iff.mpr ⟨m', hm'⟩)
  · rintro ⟨m, hm, hleast⟩
    refine ⟨mem_candidates_iff.mpr ⟨m, hm⟩, fun e' he' => ?_⟩
    obtain ⟨m', hm'⟩ := mem_candidates_iff.mp he'
    rw [hm.rank_eq, hm'.rank_eq]
    exact hleast e' m' hm'

/-! ## Parts -/

/-- Memory that spans a location spans every part of it. -/
theorem Spans.part (hab : a.covers b = true) (h : t.Spans a e m) : t.Spans b e m := by
  obtain ⟨hstored, hlisted, hcovered⟩ := h
  have hptr : a.ptr = b.ptr := (MemoryLocation.covers_iff.mp hab).1
  rw [hptr] at hlisted hcovered
  exact ⟨hstored, hlisted, MemoryLocation.covers_trans hcovered hab⟩

/-- Memory of unknown size spans every location at its pointers. -/
theorem Spans.of_unknown (h : t.Spans a e m) (hptr : a.ptr = b.ptr) (hm : m.size = none) :
    t.Spans b e m := by
  refine ⟨h.stored, hptr ▸ h.listed, ?_⟩
  rw [hm]
  exact MemoryLocation.covers_iff.mpr ⟨rfl, le_top⟩

/-- What is found for a part of a location is not larger than what is found for all of it. -/
theorem find?_part (hab : a.covers b = true) (h : t.find? a = some e) :
    ∃ e' m m', t.find? b = some e' ∧ t.Spans a e m ∧ t.Spans b e' m'
      ∧ MemoryLocation.sizeCovers m.size m'.size = true ∧ m'.rank ≤ m.rank := by
  obtain ⟨m, hm, hleast⟩ := find?_eq_some_iff.mp h
  obtain ⟨e', he'⟩ : ∃ e', t.find? b = some e' := by
    refine Option.ne_none_iff_exists'.mp fun hnone => ?_
    exact find?_eq_none_iff.mp hnone e m (hm.part hab)
  obtain ⟨m', hm', hleast'⟩ := find?_eq_some_iff.mp he'
  have hle : m'.rank ≤ m.rank := by
    have hrank := hleast' e m (hm.part hab)
    omega
  refine ⟨e', m, m', he', hm, hm', ?_, hle⟩
  unfold Estimate.rank at hle
  cases hsize' : m'.size with
  | none =>
    -- Memory of unknown size spans the whole location as well, where it was not preferred.
    have hwhole : t.Spans a e' m' := hm'.of_unknown (MemoryLocation.covers_iff.mp hab).1.symm hsize'
    have hrank := hleast e' m' hwhole
    have hrank' := hleast' e m (hm.part hab)
    obtain rfl : e' = e := estimate_eq_of_index e' e (by omega)
    obtain rfl := hm'.memory_eq hm
    rw [hsize']
    rfl
  | some n =>
    cases hsize : m.size with
    | none => rfl
    | some k =>
      rw [hsize, hsize'] at hle
      exact decide_eq_true hle

/-! ## The specification of a look-up -/

/-- What a look-up gives: the smallest memory that spans a location. -/
structure Tightest (t : AliasTree) (find : MemoryLocation → Option EstimateId) : Prop where
  /-- Nothing is found only where there is nothing to find. -/
  none_iff : ∀ loc, find loc = none ↔ ∀ e m, ¬t.Spans loc e m
  /-- Of several memories of least size the one added first is found. -/
  some_iff : ∀ loc e, find loc = some e ↔ ∃ m, t.Spans loc e m ∧
    ∀ e' m', t.Spans loc e' m' → m.rank < m'.rank ∨ (m.rank = m'.rank ∧ e.index ≤ e'.index)
  /-- Every part of a location that is found is found, in memory that is not larger. -/
  part : ∀ a b e, a.covers b = true → find a = some e →
    ∃ e' m m', find b = some e' ∧ t.Spans a e m ∧ t.Spans b e' m'
      ∧ MemoryLocation.sizeCovers m.size m'.size = true ∧ m'.rank ≤ m.rank

/-- The look-up is the tightest one. -/
theorem tightest_find? (t : AliasTree) : t.Tightest t.find? where
  none_iff _ := find?_eq_none_iff
  some_iff _ _ := find?_eq_some_iff
  part _ _ _ := find?_part

end AliasTree

end Privatization
