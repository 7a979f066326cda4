import Mathlib.Logic.Relation
import Privatization.Proofs.Ledger.Reached
import Privatization.Proofs.Trait.Meet

/-!
# Unions of entries

Entries are added, folded and narrowed in any order, and every operation may name an entry by any
number it ever had. The groups that this makes are the classes of what was folded together, and the
value of a group is the meet of all that was ever observed on its members (`joined_performAll`).
Each operation keeps both, whatever came before it (`Joined.perform`).
-/

namespace Privatization

/-! ## Operations -/

/-- What may be done to the entries of a ledger. -/
inductive EntryOp where
  | add (memory : EstimateId) (value : Trait)
  | fold (source target : EntryId)
  | narrow (id : EntryId) (value : Trait)
  deriving DecidableEq

namespace EntryOp

/-- The entries that an operation names. -/
def names : EntryOp → List EntryId
  | add .. => []
  | fold source target => [source, target]
  | narrow id _ => [id]

/-- How many entries there are after an operation on `n` of them. -/
def extent (n : Nat) : EntryOp → Nat
  | add .. => n + 1
  | fold .. => n
  | narrow .. => n

/-- What an operation on `n` entries observes. A new entry gets the next number. -/
def observed (n : Nat) : EntryOp → List (EntryId × Trait)
  | add _ value => [(⟨n⟩, value)]
  | fold .. => []
  | narrow id value => [(id, value)]

/-- Each operation names entries that are there by then; at the beginning there are `n`. -/
def InRange : Nat → List EntryOp → Prop
  | _, [] => True
  | n, op :: ops => (∀ id ∈ op.names, id.index < n) ∧ InRange (op.extent n) ops

instance decidableInRange : (n : Nat) → (ops : List EntryOp) → Decidable (InRange n ops)
  | _, [] => inferInstanceAs (Decidable True)
  | n, op :: ops =>
    have := decidableInRange (op.extent n) ops
    inferInstanceAs (Decidable (_ ∧ _))

/-- All that operations observe, in order. -/
def observations : Nat → List EntryOp → List (EntryId × Trait)
  | _, [] => []
  | n, op :: ops => op.observed n ++ observations (op.extent n) ops

/-- The folds among the operations connect two entries. -/
def Connected (ops : List EntryOp) : EntryId → EntryId → Prop :=
  Relation.EqvGen fun x y => fold x y ∈ ops

end EntryOp

namespace Ledger

open EntryOp (Connected)

variable {l : Ledger} {x y source target id : EntryId} {ops : List EntryOp} {op : EntryOp}
  {obs : List (EntryId × Trait)} {m : EstimateId} {v : Trait}

/-- Does something to the entries. -/
def perform (l : Ledger) : EntryOp → Ledger
  | .add memory value => (l.addEntry memory value).1
  | .fold source target => l.fold source target
  | .narrow id value => l.narrow id value

/-- The ledger that operations lead to from one without entries. -/
def performAll (ops : List EntryOp) : Ledger := ops.foldl perform {}

/-! ## What each operation does to leaders and values -/

/-- The number of a new entry led itself before the entry was there. -/
theorem leader_addEntry (x : EntryId) : (l.addEntry m v).1.leader x = l.leader x := by
  rw [leader_eq, leader_eq]
  show (((l.entries.push _)[x.index]?).map _).getD x = _
  rw [Array.getElem?_push]
  split
  next hx =>
    rw [hx, Array.getElem?_eq_none (Nat.le_refl _)]
    exact congrArg EntryId.mk hx.symm
  next => rfl

/-- A number of no entry leads itself. -/
theorem leader_beyond (h : l.entries.size ≤ x.index) : l.leader x = x := by
  rw [leader_eq, Array.getElem?_eq_none h]
  rfl

/-- The next number leads itself. -/
theorem leader_next (l : Ledger) : l.leader ⟨l.entries.size⟩ = ⟨l.entries.size⟩ :=
  leader_beyond (Nat.le_refl _)

/-- A new entry has the value it was added with. -/
theorem value_addEntry_self : (l.addEntry m v).1.value ⟨l.entries.size⟩ = v := by
  unfold value entry?
  rw [leader_addEntry, leader_next]
  show (((l.entries.push _)[l.entries.size]?).map _).getD _ = v
  rw [Array.getElem?_push, if_pos rfl]
  rfl

/-- The leader of an entry is an entry. -/
theorem Grouped.leader_lt (g : l.Grouped) (hx : x.index < l.entries.size) :
    (l.leader x).index < l.entries.size :=
  (g.leads_leader hx).lt

/-- A new entry leaves the values of the others. -/
theorem Grouped.value_addEntry (g : l.Grouped) (hx : x.index < l.entries.size) :
    (l.addEntry m v).1.value x = l.value x := by
  have hlead := g.leader_lt hx
  unfold value entry?
  rw [leader_addEntry]
  show (((l.entries.push _)[(l.leader x).index]?).map _).getD _ = _
  rw [Array.getElem?_push, if_neg (by omega)]

/-- Narrowing adds no entry. -/
theorem size_narrow : (l.narrow id v).entries.size = l.entries.size := Array.size_modify ..

/-- Narrowing an entry changes no leader. -/
theorem leader_narrow (x : EntryId) : (l.narrow id v).leader x = l.leader x :=
  leader_modifyEntry (keeps_value v) x

/-- Narrowing an entry keeps the ledger grouped. -/
theorem Grouped.narrow (g : l.Grouped) (hid : id.index < l.entries.size) :
    (l.narrow id v).Grouped := by
  rw [Ledger.narrow, g.modifyEntry_leader hid]
  exact g.modifyEntry (g.leads_leader hid) (keeps_value v)

/-- Narrowing by any member meets the value of the whole group, and of no other. -/
theorem Grouped.value_narrow (g : l.Grouped) (hid : id.index < l.entries.size)
    (hx : x.index < l.entries.size) : (l.narrow id v).value x
      = (l.value x).meet (.onlyIf (decide (l.leader id = l.leader x)) v) := by
  have hgroup : l.narrow id v = l.narrow (l.leader id) v := g.modifyEntry_leader hid _
  have hsize : x.index < (l.narrow id v).entries.size := by rwa [size_narrow]
  rw [← (g.narrow hid).value_leader hsize, leader_narrow, hgroup, ← g.value_leader hx]
  by_cases h : l.leader id = l.leader x
  · rw [decide_eq_true h, h]
    exact value_narrow_self (g.leads_leader hx) v
  · rw [decide_eq_false h]
    show _ = (l.value (l.leader x)).meet .noAccess
    rw [Trait.meet_noAccess]
    exact value_narrow_of_ne (g.leads_leader hid) (g.leads_leader hx) (Ne.symm h) v

/-- Folding adds no entry and removes none. -/
theorem size_fold : (l.fold source target).entries.size = l.entries.size := by
  unfold Ledger.fold
  dsimp only
  split
  · rfl
  · rw [Array.size_map, size_narrow]

/-- What followed the leader of the source follows that of the target, also if they are one. -/
theorem Grouped.leader_fold (g : l.Grouped) (hs : source.index < l.entries.size)
    (ht : target.index < l.entries.size) (x : EntryId) : (l.fold source target).leader x
      = if l.leader x = l.leader source then l.leader target else l.leader x := by
  rw [g.fold_leader hs ht]
  by_cases hne : l.leader source = l.leader target
  · rw [hne, fold_self]
    split
    next h => exact h
    next => rfl
  · exact Ledger.leader_fold (g.leads_leader hs) (g.leads_leader ht) hne x

/-- After a fold of two groups both have the meet of their values, and other groups theirs. -/
theorem Grouped.value_fold (g : l.Grouped) (hs : source.index < l.entries.size)
    (ht : target.index < l.entries.size) (hne : l.leader source ≠ l.leader target)
    (hx : x.index < l.entries.size) : (l.fold source target).value x
      = if l.leader x = l.leader source ∨ l.leader x = l.leader target then
          (l.value target).meet (l.value source)
        else l.value x := by
  have hsize : x.index < (l.fold source target).entries.size := by rwa [size_fold]
  have hls := g.leads_leader hs
  have hlt := g.leads_leader ht
  rw [← (g.fold_any hs ht).value_leader hsize, g.leader_fold hs ht, g.fold_leader hs ht]
  have htarget := value_fold_target hls hlt hne
  rw [g.value_leader hs, g.value_leader ht] at htarget
  by_cases hsource : l.leader x = l.leader source
  · rw [if_pos hsource, if_pos (.inl hsource)]
    exact htarget
  · rw [if_neg hsource]
    by_cases hjoin : l.leader x = l.leader target
    · rw [if_pos (.inr hjoin), hjoin]
      exact htarget
    · rw [if_neg (by simp [hsource, hjoin]), ← g.value_leader hx]
      exact value_fold_of_ne hls hlt hne (g.leads_leader hx) hsource hjoin

/-! ## Groups and values -/

/-- The groups are what the operations `ops` connected, and each has the value that is the meet of
the observations `obs` on its members. -/
structure Joined (ops : List EntryOp) (obs : List (EntryId × Trait)) (l : Ledger) : Prop where
  grouped : l.Grouped
  leader_iff : ∀ x y, l.leader x = l.leader y ↔ Connected ops x y
  observed_lt : ∀ p ∈ obs, p.1.index < l.entries.size
  value : ∀ x, x.index < l.entries.size →
    l.value x = .meetOver obs (fun p => decide (l.leader p.1 = l.leader x)) Prod.snd

/-- What folded entries agree on, connected ones do. -/
theorem eq_of_connected {f : EntryId → EntryId} (hf : ∀ x y, .fold x y ∈ ops → f x = f y)
    (h : Connected ops x y) : f x = f y := by
  induction h with
  | rel x y h => exact hf x y h
  | refl x => rfl
  | symm x y _ ih => exact ih.symm
  | trans x y z _ _ ihxy ihyz => exact ihxy.trans ihyz

/-- A ledger without entries: no two numbers are connected. -/
theorem Joined.start : Joined [] [] {} where
  grouped := (Reached.start ∅).grouped
  leader_iff x y := by
    constructor
    · rintro rfl
      exact .refl x
    · exact eq_of_connected (f := leader {}) fun x y h => by cases h
  observed_lt p hp := by cases hp
  value x hx := absurd hx (Nat.not_lt_zero _)

/-- Only folds connect. -/
theorem connected_concat (h : ∀ x y, op ≠ .fold x y) :
    Connected (ops ++ [op]) x y ↔ Connected ops x y := by
  have hfolds : (fun x y => EntryOp.fold x y ∈ ops ++ [op]) = fun x y => .fold x y ∈ ops := by
    funext x y
    have hne : EntryOp.fold x y ≠ op := (h x y).symm
    simp [hne]
  unfold Connected
  rw [hfolds]

/-- What is connected stays so. -/
theorem connected_mono (h : Connected ops x y) : Connected (ops ++ [op]) x y :=
  Relation.EqvGen.mono (fun _ _ hfold => List.mem_append_left _ hfold) x y h

/-- A new entry is a group of its own with the value it was added with. -/
theorem Joined.add (h : Joined ops obs l) :
    Joined (ops ++ [.add m v]) (obs ++ [(⟨l.entries.size⟩, v)]) (l.addEntry m v).1 := by
  have hsize : (l.addEntry m v).1.entries.size = l.entries.size + 1 := Array.size_push ..
  have hnew := leader_next l
  constructor
  case grouped => exact h.grouped.addEntry m v
  case leader_iff =>
    intro x y
    rw [leader_addEntry, leader_addEntry, h.leader_iff, connected_concat (by simp)]
  case observed_lt =>
    intro p hp
    rw [hsize]
    rcases List.mem_append.mp hp with hp | hp
    · exact Nat.lt_succ_of_lt (h.observed_lt p hp)
    · rw [List.mem_singleton.mp hp]
      exact Nat.lt_succ_self _
  case value =>
    intro x hx
    simp only [leader_addEntry]
    rw [Trait.meetOver_concat, hnew]
    by_cases hold : x.index < l.entries.size
    · -- The new entry is in no group there was.
      have hlead := h.grouped.leader_lt hold
      have hother : (⟨l.entries.size⟩ : EntryId) ≠ l.leader x := by
        intro heq
        rw [← heq] at hlead
        exact Nat.lt_irrefl _ hlead
      rw [h.grouped.value_addEntry hold, h.value x hold, decide_eq_false hother]
      exact (Trait.meet_noAccess _).symm
    -- Nothing was observed on the new entry before.
    · obtain rfl : x = ⟨l.entries.size⟩ := congrArg EntryId.mk (by omega : x.index = l.entries.size)
      have hnone : Trait.meetOver obs
          (fun p => decide (l.leader p.1 = l.leader ⟨l.entries.size⟩)) Prod.snd = .noAccess := by
        have hfalse : ∀ p ∈ obs, decide (l.leader p.1 = l.leader ⟨l.entries.size⟩) = false := by
          intro p hp
          have hlead := h.grouped.leader_lt (h.observed_lt p hp)
          apply decide_eq_false
          intro heq
          rw [heq, hnew] at hlead
          exact Nat.lt_irrefl _ hlead
        unfold Trait.meetOver
        rw [List.filter_eq_nil_iff.mpr fun p hp => by rw [hfalse p hp]; exact Bool.false_ne_true]
        rfl
      rw [value_addEntry_self, hnone, hnew, decide_eq_true rfl]
      exact (Trait.noAccess_meet v).symm

/-- Narrowing adds an observation to one group. -/
theorem Joined.narrow (h : Joined ops obs l) (hid : id.index < l.entries.size) :
    Joined (ops ++ [.narrow id v]) (obs ++ [(id, v)]) (l.narrow id v) := by
  constructor
  case grouped => exact h.grouped.narrow hid
  case leader_iff =>
    intro x y
    rw [leader_narrow, leader_narrow, h.leader_iff, connected_concat (by simp)]
  case observed_lt =>
    intro p hp
    rw [size_narrow]
    rcases List.mem_append.mp hp with hp | hp
    · exact h.observed_lt p hp
    · rw [List.mem_singleton.mp hp]
      exact hid
  case value =>
    intro x hx
    rw [size_narrow] at hx
    simp only [leader_narrow]
    rw [Trait.meetOver_concat, h.grouped.value_narrow hid hx, h.value x hx]

/-- The classes of source and target become one. -/
theorem Joined.leader_fold_iff (h : Joined ops obs l) (hs : source.index < l.entries.size)
    (ht : target.index < l.entries.size) :
    (l.fold source target).leader x = (l.fold source target).leader y
      ↔ Connected (ops ++ [.fold source target]) x y := by
  have hfold : Connected (ops ++ [.fold source target]) source target := .rel _ _ (by simp)
  have hold {x y : EntryId} (heq : l.leader x = l.leader y) :
      Connected (ops ++ [.fold source target]) x y := connected_mono ((h.leader_iff x y).mp heq)
  constructor
  · intro heq
    rw [h.grouped.leader_fold hs ht, h.grouped.leader_fold hs ht] at heq
    -- Either entry may have followed the source, and follows the target now.
    split at heq
    next hx =>
      split at heq
      next hy => exact hold (hx.trans hy.symm)
      next => exact .trans _ _ _ (hold hx) (.trans _ _ _ hfold (hold heq))
    next =>
      split at heq
      next hy => exact .trans _ _ _ (hold heq) (.symm _ _ (.trans _ _ _ (hold hy) hfold))
      next => exact hold heq
  · apply eq_of_connected (f := leader (l.fold source target))
    intro x y hmem
    rw [h.grouped.leader_fold hs ht, h.grouped.leader_fold hs ht]
    rcases List.mem_append.mp hmem with hmem | hmem
    · rw [(h.leader_iff x y).mpr (.rel x y hmem)]
    · obtain ⟨rfl, rfl⟩ : x = source ∧ y = target := by simpa using hmem
      rw [if_pos rfl]
      split <;> rfl

/-- Folding makes one group of two, and of their observations one value. -/
theorem Joined.fold (h : Joined ops obs l) (hs : source.index < l.entries.size)
    (ht : target.index < l.entries.size) :
    Joined (ops ++ [.fold source target]) obs (l.fold source target) := by
  constructor
  case grouped => exact h.grouped.fold_any hs ht
  case leader_iff => exact fun x y => h.leader_fold_iff hs ht
  case observed_lt =>
    rw [size_fold]
    exact h.observed_lt
  case value =>
    intro x hx
    rw [size_fold] at hx
    by_cases heq : l.leader source = l.leader target
    -- A fold within a group leaves the ledger as it is.
    · rw [h.grouped.fold_leader hs ht, heq, fold_self]
      exact h.value x hx
    · rw [h.grouped.value_fold hs ht heq hx]
      simp only [h.grouped.leader_fold hs ht]
      by_cases hjoined : l.leader x = l.leader source ∨ l.leader x = l.leader target
      · -- The observations of the new group are those of both.
        have hlead : (if l.leader x = l.leader source then l.leader target else l.leader x)
            = l.leader target := by
          split
          next => rfl
          next hx => exact hjoined.resolve_left hx
        rw [if_pos hjoined, hlead, h.value target ht, h.value source hs, ← Trait.meetOver_or]
        refine Trait.meetOver_congr (fun p _ => ?_) fun _ _ _ => rfl
        by_cases hp : l.leader p.1 = l.leader source
        · simp [hp]
        · simp [hp]
      · obtain ⟨hnsource, hntarget⟩ := not_or.mp hjoined
        rw [if_neg hjoined, if_neg hnsource, h.value x hx]
        refine Trait.meetOver_congr (fun p _ => ?_) fun _ _ _ => rfl
        by_cases hp : l.leader p.1 = l.leader source
        · rw [if_pos hp, hp, decide_eq_false (Ne.symm hnsource), decide_eq_false (Ne.symm hntarget)]
        · rw [if_neg hp]

/-- An operation leaves as many entries as its extent says. -/
theorem size_perform (op : EntryOp) : (l.perform op).entries.size = op.extent l.entries.size := by
  cases op with
  | add m v => exact Array.size_push ..
  | fold source target => exact size_fold
  | narrow id v => exact size_narrow

/-- Any number of operations extend a ledger by as many entries as they create. -/
theorem size_performs (l : Ledger) (ops : List EntryOp) :
    (ops.foldl perform l).entries.size = ops.foldl EntryOp.extent l.entries.size := by
  induction ops generalizing l with
  | nil => rfl
  | cons op ops ih => rw [List.foldl_cons, List.foldl_cons, ih, size_perform]

/-- One operation more keeps account of the groups. -/
theorem Joined.perform (h : Joined ops obs l)
    (hop : ∀ id ∈ op.names, id.index < l.entries.size) :
    Joined (ops ++ [op]) (obs ++ op.observed l.entries.size) (l.perform op) := by
  cases op with
  | add m v => exact h.add
  | fold source target =>
    show Joined _ (obs ++ []) _
    rw [List.append_nil]
    exact h.fold (hop source (by simp [EntryOp.names])) (hop target (by simp [EntryOp.names]))
  | narrow id v => exact h.narrow (hop id (by simp [EntryOp.names]))

/-- Many operations keep account of the groups. -/
theorem Joined.performs {more : List EntryOp} (h : Joined ops obs l)
    (hmore : EntryOp.InRange l.entries.size more) :
    Joined (ops ++ more) (obs ++ EntryOp.observations l.entries.size more)
      (more.foldl Ledger.perform l) := by
  -- Along what is left to do; what was done so far is kept in `ops` and `obs`.
  induction more generalizing ops obs l with
  | nil =>
    rw [EntryOp.observations, List.append_nil, List.append_nil]
    exact h
  | cons op more ih =>
    obtain ⟨hop, hrest⟩ := hmore
    rw [← size_perform] at hrest
    have hnext := ih (h.perform hop) hrest
    rw [size_perform, List.append_assoc, List.append_assoc] at hnext
    exact hnext

/-- The groups are what the operations connect, and the value of a group is the meet of all that
they observe on its members. -/
theorem joined_performAll (h : EntryOp.InRange 0 ops) :
    Joined ops (EntryOp.observations 0 ops) (performAll ops) :=
  Joined.start.performs h

end Ledger

end Privatization
