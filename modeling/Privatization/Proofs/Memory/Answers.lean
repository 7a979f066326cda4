import Mathlib.Data.List.Nodup
import Mathlib.Order.WithBot
import Privatization.Memory.LocationSet

/-!
# Location sets answer for everything inserted

An insertion drops locations, and a location that comes too late is dropped itself. Neither changes
an answer: a test that passes from a location to all that cover it finds among the locations of a
set what it finds among those that were inserted (`any_insertAll`). What is kept for a pointer is
the largest location inserted for it (`mem_ofList_iff`), so the order of the insertions cannot
matter.
-/

namespace Privatization

namespace MemoryLocation

variable {a b loc : MemoryLocation}

/-- The number of bytes, where an unknown number is above every known one. -/
def extent (l : MemoryLocation) : WithTop Nat :=
  match l.size with
  | none => ⊤
  | some n => WithTop.some n

/-- Whether the location has the pointer of another one and may hold a byte. -/
def touches (l loc : MemoryLocation) : Bool := l.ptr == loc.ptr && l.size != some 0

/-- At one pointer, covering is having at least as many bytes. -/
theorem covers_iff : a.covers b = true ↔ a.ptr = b.ptr ∧ b.extent ≤ a.extent := by
  rw [covers, Bool.and_eq_true, beq_iff_eq]
  refine and_congr_right fun _ => ?_
  unfold extent sizeCovers
  cases a.size with
  | none => simp
  | some m => cases b.size <;> simp

/-- A location is told by its pointer and its extent. -/
theorem extent_injective (hptr : a.ptr = b.ptr) (h : a.extent = b.extent) : a = b := by
  obtain ⟨p, m⟩ := a
  obtain ⟨q, n⟩ := b
  obtain rfl : p = q := hptr
  cases m <;> cases n <;> simp_all [extent]

/-- Locations that cover each other are equal. -/
theorem eq_of_covers (hab : a.covers b = true) (hba : b.covers a = true) : a = b := by
  obtain ⟨hptr, hle⟩ := covers_iff.mp hab
  exact extent_injective hptr (le_antisymm (covers_iff.mp hba).2 hle)

/-- Of two locations at one pointer, one covers the other. -/
theorem covers_total (hptr : a.ptr = b.ptr) : a.covers b = true ∨ b.covers a = true := by
  simpa [covers, hptr] using sizeCovers_total a.size b.size

theorem touches_iff : a.touches loc = true ↔ a.ptr = loc.ptr ∧ a.size ≠ some 0 := by
  simp [touches]

/-- What covers a location that may hold a byte may hold one too. -/
theorem touches_of_covers (hab : a.covers b = true) (hb : b.touches loc = true) :
    a.touches loc = true := by
  rw [touches_iff] at hb ⊢
  obtain ⟨hptr, hle⟩ := covers_iff.mp hab
  refine ⟨hptr.trans hb.1, fun ha => hb.2 ?_⟩
  -- Nothing but another location without bytes is covered by one.
  unfold extent at hle
  rw [ha] at hle
  cases hsize : b.size with
  | none => simp [hsize] at hle
  | some n => simp_all

end MemoryLocation

namespace LocationSet

open MemoryLocation

variable {s t : LocationSet} {new loc : MemoryLocation} {locs others : List MemoryLocation}

/-! ## Tests -/

/-- A test that passes from a location to all that cover it. -/
def Upward (p : MemoryLocation → Bool) : Prop := ∀ a b, a.covers b = true → p b = true → p a = true

/-- What covers one location is covered by all that cover it in turn. -/
theorem upward_covers (loc : MemoryLocation) : Upward (·.covers loc) :=
  fun _ _ => covers_trans

theorem upward_touches (loc : MemoryLocation) : Upward (·.touches loc) :=
  fun _ _ => touches_of_covers

/-- An insertion adds what the new location answers and takes nothing away. -/
theorem any_insert {p : MemoryLocation → Bool} (hp : Upward p) (s : LocationSet)
    (new : MemoryLocation) : (s.insert new).locations.any p = (s.locations.any p || p new) := by
  rw [Bool.eq_iff_iff, Bool.or_eq_true]
  unfold insert
  split
  next h =>
    -- What covers the new location answers for it.
    refine ⟨.inl, fun h' => h'.elim id fun hnew => ?_⟩
    obtain ⟨k, hk, hkn⟩ := List.any_eq_true.mp h
    exact List.any_eq_true.mpr ⟨k, hk, hp k new hkn hnew⟩
  next h =>
    simp only [List.any_append, List.any_cons, List.any_nil, Bool.or_false, Bool.or_eq_true,
      List.any_eq_true, List.mem_filter]
    constructor
    · rintro (⟨k, ⟨hk, -⟩, hpk⟩ | hnew)
      · exact .inl ⟨k, hk, hpk⟩
      · exact .inr hnew
    · rintro (⟨k, hk, hpk⟩ | hnew)
      · -- The new location answers for what it drops.
        by_cases hc : new.covers k = true
        · exact .inr (hp new k hc hpk)
        · exact .inl ⟨k, ⟨hk, by simpa using hc⟩, hpk⟩
      · exact .inr hnew

/-- A run of insertions adds what the inserted locations answer. -/
theorem any_insertAll {p : MemoryLocation → Bool} (hp : Upward p) (s : LocationSet)
    (locs : List MemoryLocation) :
    (s.insertAll locs).locations.any p = (s.locations.any p || locs.any p) := by
  induction locs generalizing s with
  | nil => simp [insertAll]
  | cons new locs ih =>
    show ((s.insert new).insertAll locs).locations.any p = _
    rw [ih, any_insert hp, List.any_cons, Bool.or_assoc]

/-- A set contains a location that an inserted one covers. -/
theorem contains_insertAll (s : LocationSet) (locs : List MemoryLocation) (loc : MemoryLocation) :
    (s.insertAll locs).contains loc = (s.contains loc || locs.any (·.covers loc)) :=
  any_insertAll (upward_covers loc) s locs

/-- A set overlaps a location that an inserted one touches. -/
theorem overlaps_insertAll (s : LocationSet) (locs : List MemoryLocation) (loc : MemoryLocation) :
    (s.insertAll locs).overlaps loc = (s.overlaps loc || locs.any (·.touches loc)) :=
  any_insertAll (upward_touches loc) s locs

theorem contains_ofList (locs : List MemoryLocation) (loc : MemoryLocation) :
    (ofList locs).contains loc = locs.any (·.covers loc) := by
  rw [ofList, contains_insertAll, contains_empty, Bool.false_or]

theorem overlaps_ofList (locs : List MemoryLocation) (loc : MemoryLocation) :
    (ofList locs).overlaps loc = locs.any (·.touches loc) :=
  (overlaps_insertAll ∅ locs loc).trans (Bool.false_or _)

/-! ## What is kept -/

/-- No two locations of the set have the same pointer. -/
def Apart (s : LocationSet) : Prop := s.locations.Pairwise fun a b => a.ptr ≠ b.ptr

/-- No location is kept twice. -/
theorem Apart.nodup (h : s.Apart) : s.locations.Nodup :=
  h.imp fun hptr heq => hptr (congrArg MemoryLocation.ptr heq)

/-- What is kept was kept before or is new. -/
theorem mem_insert_locations (h : loc ∈ (s.insert new).locations) :
    loc ∈ s.locations ∨ loc = new := by
  unfold insert at h
  split at h
  · exact .inl h
  · rw [List.mem_append, List.mem_filter, List.mem_singleton] at h
    exact h.imp_left And.left

/-- An insertion leaves one location for each pointer at most. -/
theorem Apart.insert (h : s.Apart) (new : MemoryLocation) : (s.insert new).Apart := by
  unfold LocationSet.insert
  split
  · exact h
  next hnot =>
    refine List.pairwise_append.mpr ⟨h.filter _, List.pairwise_singleton .., ?_⟩
    intro k hk l hl hptr
    obtain rfl := List.mem_singleton.mp hl
    obtain ⟨hk, hdropped⟩ := List.mem_filter.mp hk
    -- One of the two would cover the other: the old one keeps the new one out, the new one drops
    -- the old one.
    rcases covers_total hptr with hkl | hlk
    · exact hnot (List.any_eq_true.mpr ⟨k, hk, hkl⟩)
    · simp [hlk] at hdropped

/-- After any insertions the locations of a set stay apart. -/
theorem apart_ofList (locs : List MemoryLocation) : (ofList locs).Apart := by
  have hrun (s : LocationSet) (h : s.Apart) : (s.insertAll locs).Apart := by
    induction locs generalizing s with
    | nil => exact h
    | cons new locs ih => exact ih (s.insert new) (h.insert new)
  exact hrun ∅ .nil

/-- What is kept was there before or was inserted. -/
theorem mem_insertAll_locations (h : loc ∈ (s.insertAll locs).locations) :
    loc ∈ s.locations ∨ loc ∈ locs := by
  induction locs generalizing s with
  | nil => exact .inl h
  | cons new locs ih =>
    rcases ih h with h | h
    · rcases mem_insert_locations h with h | rfl
      · exact .inl h
      · exact .inr List.mem_cons_self
    · exact .inr (List.mem_cons_of_mem new h)

theorem mem_of_mem_ofList (h : loc ∈ (ofList locs).locations) : loc ∈ locs :=
  (mem_insertAll_locations h).resolve_left List.not_mem_nil

/-- Every location that was inserted is covered by one that is kept. -/
theorem exists_covers (h : loc ∈ locs) : ∃ k ∈ (ofList locs).locations, k.covers loc = true := by
  have hcontains : (ofList locs).contains loc = true := by
    rw [contains_ofList]
    exact List.any_eq_true.mpr ⟨loc, h, covers_refl loc⟩
  exact List.any_eq_true.mp hcontains

/-- In such a set, a pointer tells its location. -/
theorem eq_of_ptr (h : s.Apart) {a b : MemoryLocation} (ha : a ∈ s.locations)
    (hb : b ∈ s.locations) (hptr : a.ptr = b.ptr) : a = b :=
  List.inj_on_of_nodup_map (List.pairwise_map.mpr h) ha hb hptr

/-- What is kept for a pointer is the largest location inserted for it. -/
theorem mem_ofList_iff : loc ∈ (ofList locs).locations ↔
    loc ∈ locs ∧ ∀ l ∈ locs, l.ptr = loc.ptr → l.extent ≤ loc.extent := by
  constructor
  · intro h
    refine ⟨mem_of_mem_ofList h, fun l hl hptr => ?_⟩
    -- What covers the largest location is no smaller, and it was inserted, so it is no larger.
    obtain ⟨k, hk, hkl⟩ := exists_covers hl
    obtain ⟨hptr', hle⟩ := covers_iff.mp hkl
    exact eq_of_ptr (apart_ofList locs) hk h (hptr'.trans hptr) ▸ hle
  · rintro ⟨h, hlargest⟩
    obtain ⟨k, hk, hkl⟩ := exists_covers h
    obtain ⟨hptr, hle⟩ := covers_iff.mp hkl
    have hge := hlargest k (mem_of_mem_ofList hk) hptr
    exact extent_injective hptr (le_antisymm hge hle) ▸ hk

/-! ## Answers -/

/-- What a set says about the locations that were inserted into it. -/
structure Answers (s : LocationSet) (inserted : List MemoryLocation) : Prop where
  /-- It has one location for each pointer at most. -/
  once : (s.locations.map (·.ptr)).Nodup
  /-- That is the largest one. -/
  kept : ∀ loc, loc ∈ s.locations ↔
    loc ∈ inserted ∧ ∀ l ∈ inserted, l.ptr = loc.ptr → l.extent ≤ loc.extent
  /-- No pointer is forgotten. -/
  pointers : ∀ l ∈ inserted, ∃ loc ∈ s.locations, loc.ptr = l.ptr
  contains : ∀ loc, s.contains loc = true ↔ ∃ l ∈ inserted, l.covers loc = true
  overlaps : ∀ loc, s.overlaps loc = true ↔ ∃ l ∈ inserted, l.ptr = loc.ptr ∧ l.size ≠ some 0

/-- A set built by insertions answers for all of them. -/
theorem answers_ofList (locs : List MemoryLocation) : (ofList locs).Answers locs where
  once := List.pairwise_map.mpr (apart_ofList locs)
  kept _ := mem_ofList_iff
  pointers l hl := by
    obtain ⟨k, hk, hkl⟩ := exists_covers hl
    exact ⟨k, hk, (covers_iff.mp hkl).1⟩
  contains loc := by rw [contains_ofList, List.any_eq_true]
  overlaps loc := by
    rw [overlaps_ofList, List.any_eq_true]
    simp only [touches_iff]

/-- Two sets keep the same locations, and so give the same answers. -/
structure Same (s t : LocationSet) : Prop where
  locations : s.locations.Perm t.locations
  contains : ∀ loc, s.contains loc = t.contains loc
  overlaps : ∀ loc, s.overlaps loc = t.overlaps loc

/-- A set that contains the same holds the same locations. -/
theorem mem_of_contains (hs : s.Apart) (h : ∀ loc, s.contains loc = t.contains loc)
    (hloc : loc ∈ s.locations) : loc ∈ t.locations := by
  have hself : s.contains loc = true := List.any_eq_true.mpr ⟨loc, hloc, covers_refl loc⟩
  rw [h] at hself
  obtain ⟨m, hm, hmloc⟩ := List.any_eq_true.mp hself
  have hback : t.contains m = true := List.any_eq_true.mpr ⟨m, hm, covers_refl m⟩
  rw [← h] at hback
  obtain ⟨k, hk, hkm⟩ := List.any_eq_true.mp hback
  -- The location, what covers it in `t` and what covers that in `s` are one.
  obtain rfl : k = loc := eq_of_ptr hs hk hloc (covers_iff.mp (covers_trans hkm hmloc)).1
  exact eq_of_covers hkm hmloc ▸ hm

/-- A set is determined by what it contains. -/
theorem same_of_contains (hs : s.Apart) (ht : t.Apart)
    (h : ∀ loc, s.contains loc = t.contains loc) : s.Same t := by
  have hperm : s.locations.Perm t.locations := by
    refine (List.perm_ext_iff_of_nodup hs.nodup ht.nodup).mpr fun loc => ?_
    exact ⟨mem_of_contains hs h, mem_of_contains ht fun loc => (h loc).symm⟩
  exact ⟨hperm, h, fun _ => hperm.any_eq⟩

/-- It does not matter in which order locations are inserted, nor how often. -/
theorem same_of_mem_iff (h : ∀ l, l ∈ others ↔ l ∈ locs) : (ofList others).Same (ofList locs) := by
  refine same_of_contains (apart_ofList others) (apart_ofList locs) fun loc => ?_
  rw [Bool.eq_iff_iff, (answers_ofList others).contains, (answers_ofList locs).contains]
  simp only [h]

/-- A set that keeps the same as another one answers for the same insertions. -/
theorem Answers.of_same (h : s.Same t) (r : t.Answers locs) : s.Answers locs where
  once := (h.locations.map _).nodup_iff.mpr r.once
  kept loc := h.locations.mem_iff.trans (r.kept loc)
  pointers l hl := by
    obtain ⟨k, hk, hptr⟩ := r.pointers l hl
    exact ⟨k, h.locations.mem_iff.mpr hk, hptr⟩
  contains loc := by rw [h.contains, r.contains]
  overlaps loc := by rw [h.overlaps, r.overlaps]

/-- A set that takes in what another one kept answers for all that was inserted into that one. -/
theorem answers_insertAll_locations (locs others : List MemoryLocation) :
    ((ofList locs).insertAll (ofList others).locations).Answers (locs ++ others) := by
  have hofList : (ofList locs).insertAll (ofList others).locations
      = ofList (locs ++ (ofList others).locations) := List.foldl_append.symm
  rw [hofList]
  refine .of_same ?_ (answers_ofList (locs ++ others))
  -- What was dropped is covered by what was kept, so both sets contain the same.
  refine same_of_contains (apart_ofList _) (apart_ofList _) fun loc => ?_
  have hkept : (ofList others).locations.any (·.covers loc) = others.any (·.covers loc) :=
    contains_ofList others loc
  rw [contains_ofList, contains_ofList, List.any_append, List.any_append, hkept]

end LocationSet

end Privatization
