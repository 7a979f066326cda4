import Privatization.Proofs.Alias.Ancestry
import Privatization.Proofs.Ledger.Groups
import Privatization.Proofs.Trait.Meet

/-!
# What a ledger accounts for

The memory a loop accesses by name moves towards the root while the loop is classified, and entries
merge on the way. Two functions follow it: `place` says where each memory stands by now, and `said`
what was observed about it. A ledger *accounts* for them if every group stands at the place of one
of its members, around the places of all others, and carries the meet of what was observed about its
members: nothing is lost, counted for another memory or made up. Each operation of the ledger then
has its counterpart on `place` and `said` (`Accounts.setMemory`, `Accounts.fold`,
`Accounts.narrow`).

Which groups stand in the list of a node is a matter of its own (`Gathers`).
-/

namespace Privatization.Ledger

variable {l l' : Ledger} {t : AliasTree} {id source target : EntryId} {em : EstimateId}
  {place : EstimateId → EstimateId} {said : EstimateId → Trait}

/-- Whether the group of the leader `id` speaks for `em`. -/
def member (l : Ledger) (id : EntryId) (em : EstimateId) : Bool := l.explicitEntry? em == some id

theorem member_iff : l.member id em = true ↔ l.explicitEntry? em = some id := beq_iff_eq

/-- The ledger accounts for where memory stands and for what was said about it. -/
structure Accounts (l : Ledger) (t : AliasTree) (place : EstimateId → EstimateId)
    (said : EstimateId → Trait) : Prop where
  grouped : l.Grouped
  stands : ∀ (em : EstimateId) (id : EntryId), l.explicitEntry? em = some id →
    ∃ em₀, l.explicitEntry? em₀ = some id ∧ l.memory? id = some (place em₀)
      ∧ t.isEstimateAncestor (place em₀) (place em) = true
  heard : ∀ (em : EstimateId) (id : EntryId), l.explicitEntry? em = some id →
    l.value id = Trait.meetOver l.explicit.keys (l.member id) said

/-- Only what is accessed by name is accounted for. -/
theorem Accounts.congr {place' : EstimateId → EstimateId} {said' : EstimateId → Trait}
    (a : l.Accounts t place said) (hp : ∀ em ∈ l.explicit.keys, place' em = place em)
    (hs : ∀ em ∈ l.explicit.keys, said' em = said em) : l.Accounts t place' said' where
  grouped := a.grouped
  stands em id h := by
    obtain ⟨em₀, h₀, hm, hanc⟩ := a.stands em id h
    refine ⟨em₀, h₀, ?_, ?_⟩
    · rw [hm, hp em₀ (mem_explicit_keys.mpr ⟨id, h₀⟩)]
    · rw [hp em₀ (mem_explicit_keys.mpr ⟨id, h₀⟩), hp em (mem_explicit_keys.mpr ⟨id, h⟩)]
      exact hanc
  heard em id h := by
    rw [a.heard em id h]
    exact Trait.meetOver_congr (fun _ _ => rfl) fun k hk _ => (hs k hk).symm

/-! ## Moving a group -/

/-- Where memory stands once the members of a group moved by `f`. -/
def moved (l : Ledger) (id : EntryId) (f : EstimateId → EstimateId)
    (place : EstimateId → EstimateId) (em : EstimateId) : EstimateId :=
  if l.member id em then f (place em) else place em

theorem moved_of_member {f : EstimateId → EstimateId} (h : l.explicitEntry? em = some id) :
    l.moved id f place em = f (place em) :=
  if_pos (member_iff.mpr h)

theorem moved_of_ne {f : EstimateId → EstimateId} {j : EntryId} (h : l.explicitEntry? em = some j)
    (hne : j ≠ id) : l.moved id f place em = place em := by
  refine if_neg fun hmem => hne ?_
  rw [member_iff, h] at hmem
  exact Option.some.inj hmem

/-- A group moves with its members, provided the move respects that it stands around them. -/
theorem Accounts.setMemory {f : EstimateId → EstimateId} {m : EstimateId}
    (a : l.Accounts t place said) (hid : l.explicitEntry? em = some id)
    (hm : l.memory? id = some m)
    (hmono : ∀ e, l.explicitEntry? e = some id → t.isEstimateAncestor (f m) (f (place e)) = true) :
    (l.setMemory id (f m)).Accounts t (l.moved id f place) said := by
  have hleads := a.grouped.leads hid
  constructor
  case grouped => exact a.grouped.modifyEntry hleads (keeps_memory _)
  case stands =>
    intro e j he
    rw [explicitEntry?_setMemory] at he
    -- The member whose place the group stood at is moved along with it.
    obtain ⟨e₀, he₀, hm₀, hanc⟩ := a.stands e j he
    by_cases hj : j = id
    · subst hj
      obtain rfl : place e₀ = m := Option.some.inj (hm₀.symm.trans hm)
      refine ⟨e₀, (explicitEntry?_setMemory ..).trans he₀, ?_, ?_⟩
      · rw [memory?_setMemory_self hleads, moved_of_member he₀]
      · rw [moved_of_member he₀, moved_of_member he]
        exact hmono e he
    · refine ⟨e₀, (explicitEntry?_setMemory ..).trans he₀, ?_, ?_⟩
      · rw [memory?_setMemory_of_ne hleads (a.grouped.leads he) hj, moved_of_ne he₀ hj, hm₀]
      · rw [moved_of_ne he₀ hj, moved_of_ne he hj]
        exact hanc
  case heard =>
    intro e j he
    rw [explicitEntry?_setMemory] at he
    rw [value_setMemory hleads (a.grouped.leads he), a.heard e j he]
    refine Trait.meetOver_congr (fun k _ => ?_) fun _ _ _ => rfl
    unfold member
    rw [explicitEntry?_setMemory]

/-- A move that leaves the memory of a group where it is needs no change to the ledger. -/
theorem Accounts.stay {f : EstimateId → EstimateId} {m : EstimateId}
    (a : l.Accounts t place said) (hm : l.memory? id = some m) (hfm : f m = m)
    (hmono : ∀ e, l.explicitEntry? e = some id → t.isEstimateAncestor (f m) (f (place e)) = true) :
    l.Accounts t (l.moved id f place) said where
  grouped := a.grouped
  stands e j he := by
    obtain ⟨e₀, he₀, hm₀, hanc⟩ := a.stands e j he
    by_cases hj : j = id
    · subst hj
      obtain rfl : place e₀ = m := Option.some.inj (hm₀.symm.trans hm)
      refine ⟨e₀, he₀, ?_, ?_⟩
      · rw [hm₀, moved_of_member he₀, hfm]
      · rw [moved_of_member he₀, moved_of_member he]
        exact hmono e he
    · refine ⟨e₀, he₀, ?_, ?_⟩
      · rw [hm₀, moved_of_ne he₀ hj]
      · rw [moved_of_ne he₀ hj, moved_of_ne he hj]
        exact hanc
  heard := a.heard

/-! ## Folding a group into another -/

/-- After a fold, the target speaks for the members of both groups. -/
theorem explicitEntry?_fold_eq_target (g : l.Grouped) {e e' : EstimateId}
    (hs : l.explicitEntry? e = some source) (ht : l.explicitEntry? e' = some target)
    (hne : source ≠ target) : Ledger.explicitEntry? (l.fold source target) em = some target ↔
      l.explicitEntry? em = some source ∨ l.explicitEntry? em = some target := by
  rw [explicitEntry?_fold (g.leads hs) (g.leads ht) hne]
  split
  next h => exact ⟨fun _ => .inl h, fun _ => rfl⟩
  next h => exact ⟨.inr, fun h' => h'.resolve_left h⟩

/-- After a fold, every other group speaks for its members, and the source for none. -/
theorem explicitEntry?_fold_of_ne (g : l.Grouped) {e e' : EstimateId} {j : EntryId}
    (hs : l.explicitEntry? e = some source) (ht : l.explicitEntry? e' = some target)
    (hne : source ≠ target) (hj : j ≠ target) :
    Ledger.explicitEntry? (l.fold source target) em = some j ↔
      l.explicitEntry? em = some j ∧ j ≠ source := by
  rw [explicitEntry?_fold (g.leads hs) (g.leads ht) hne]
  split
  next h =>
    rw [h]
    constructor
    · intro heq
      exact absurd (Option.some.inj heq).symm hj
    · rintro ⟨heq, hjs⟩
      exact absurd (Option.some.inj heq).symm hjs
  next h =>
    constructor
    · intro heq
      exact ⟨heq, fun hjs => h (hjs ▸ heq)⟩
    · exact And.left

/-- A group may be folded into one that stands around the places its members move to. -/
theorem Accounts.fold {f : EstimateId → EstimateId} {m : EstimateId} {e₁ e₂ : EstimateId}
    (a : l.Accounts t place said) (hs : l.explicitEntry? e₁ = some source)
    (ht : l.explicitEntry? e₂ = some target) (hne : source ≠ target)
    (hm : l.memory? target = some m)
    (hin : ∀ e, l.explicitEntry? e = some source → t.isEstimateAncestor m (f (place e)) = true) :
    (l.fold source target).Accounts t (l.moved source f place) said := by
  have hls := a.grouped.leads hs
  have hlt := a.grouped.leads ht
  constructor
  case grouped => exact a.grouped.fold hls hlt hne
  case stands =>
    intro e j he
    by_cases hj : j = target
    · subst hj
      -- The target stays, at the place of one of its own members.
      obtain ⟨e₀, he₀, hm₀, -⟩ := a.stands e₂ j ht
      have hplace : l.moved source f place e₀ = m := by
        rw [moved_of_ne he₀ hne.symm]
        exact Option.some.inj (hm₀.symm.trans hm)
      refine ⟨e₀, (explicitEntry?_fold_eq_target a.grouped hs ht hne).mpr (.inr he₀), ?_, ?_⟩
      · rw [memory?_fold hls hlt hne hlt hne.symm, hplace, hm]
      · rw [hplace]
        rcases (explicitEntry?_fold_eq_target a.grouped hs ht hne).mp he with he | he
        · rw [moved_of_member he]
          exact hin e he
        · obtain ⟨e₃, -, hm₃, hanc⟩ := a.stands e j he
          rw [moved_of_ne he hne.symm, ← Option.some.inj (hm₃.symm.trans hm)]
          exact hanc
    · obtain ⟨he, hjs⟩ := (explicitEntry?_fold_of_ne a.grouped hs ht hne hj).mp he
      obtain ⟨e₀, he₀, hm₀, hanc⟩ := a.stands e j he
      refine ⟨e₀, (explicitEntry?_fold_of_ne a.grouped hs ht hne hj).mpr ⟨he₀, hjs⟩, ?_, ?_⟩
      · rw [memory?_fold hls hlt hne (a.grouped.leads he) hjs, hm₀, moved_of_ne he₀ hjs]
      · rw [moved_of_ne he₀ hjs, moved_of_ne he hjs]
        exact hanc
  case heard =>
    intro e j he
    rw [explicit_fold hls hlt hne]
    by_cases hj : j = target
    · subst hj
      -- The members of the target are now those of both groups.
      rw [value_fold_target hls hlt hne, a.heard e₂ j ht, a.heard e₁ source hs,
        ← Trait.meetOver_or]
      refine Trait.meetOver_congr (fun k _ => ?_) fun _ _ _ => rfl
      rw [Bool.eq_iff_iff, Bool.or_eq_true, member_iff, member_iff, member_iff,
        explicitEntry?_fold_eq_target a.grouped hs ht hne]
      exact Or.comm
    · obtain ⟨he, hjs⟩ := (explicitEntry?_fold_of_ne a.grouped hs ht hne hj).mp he
      rw [value_fold_of_ne hls hlt hne (a.grouped.leads he) hjs hj, a.heard e j he]
      refine Trait.meetOver_congr (fun k _ => ?_) fun _ _ _ => rfl
      rw [Bool.eq_iff_iff, member_iff, member_iff,
        explicitEntry?_fold_of_ne a.grouped hs ht hne hj]
      exact ⟨fun h => ⟨h, hjs⟩, And.left⟩

/-! ## Observing something about a group -/

/-- What narrows a group was said about each of its members. It may be said in other words `v'` that
come to the same for this group. -/
theorem Accounts.narrow {v v' : Trait} (a : l.Accounts t place said)
    (hid : l.explicitEntry? em = some id) (hv : (l.value id).meet v = (l.value id).meet v') :
    (l.narrow id v).Accounts t place
      fun e => if l.member id e then (said e).meet v' else said e := by
  have hleads := a.grouped.leads hid
  have hmember (j : EntryId) (e : EstimateId) : (l.narrow id v).member j e = l.member j e := by
    unfold member
    rw [explicitEntry?_narrow]
  constructor
  case grouped => exact a.grouped.modifyEntry hleads (keeps_value v)
  case stands =>
    intro e j he
    rw [explicitEntry?_narrow] at he
    obtain ⟨e₀, he₀, hm₀, hanc⟩ := a.stands e j he
    refine ⟨e₀, (explicitEntry?_narrow ..).trans he₀, ?_, hanc⟩
    rw [memory?_narrow hleads (a.grouped.leads he), hm₀]
  case heard =>
    intro e j he
    rw [explicitEntry?_narrow] at he
    show _ = Trait.meetOver l.explicit.keys _ _
    rw [funext (hmember j)]
    by_cases hj : j = id
    · subst hj
      -- What is said about every member alike is said about the group once.
      rw [value_narrow_self hleads, hv, a.heard e j he,
        ← Trait.meetOver_meet (mem_explicit_keys.mpr ⟨j, he⟩) (member_iff.mpr he)]
      exact Trait.meetOver_congr (fun _ _ => rfl) fun k _ hk => (if_pos hk).symm
    · rw [value_narrow_of_ne hleads (a.grouped.leads he) hj, a.heard e j he]
      refine Trait.meetOver_congr (fun _ _ => rfl) fun k _ hk => (if_neg fun hkid => hj ?_).symm
      rw [member_iff] at hk hkid
      exact Option.some.inj (hk.symm.trans hkid)

/-- Counting observes nothing. -/
theorem Accounts.count (a : l.Accounts t place said) (c : Categories) (k : UInt64) :
    (l.count c k).Accounts t place said where
  grouped := ⟨a.grouped.led, a.grouped.entered⟩
  stands := a.stands
  heard := a.heard

end Privatization.Ledger
