import Privatization.Classification.Propagation
import Privatization.Proofs.Alias.Lift
import Privatization.Proofs.Ledger.Lists

/-!
# Folding duplicates

What a node does with the groups it collected. First each group moves to the coarsest memory of the
node around it, which is one step of `settle` for all memory at or below the node
(`generalize_run`). Then groups are kept one by one, and of two groups whose memories lie one around
the other the inner is folded into the outer (`absorb_spec`, `keep_run`). What is left stands at
memories of which none lies around another (`foldDuplicates_spec`).
-/

namespace Privatization.Scope

variable {s : Scope} {n : AliasNodeId} {l l' : Ledger} {kept queue ids others : List EntryId}
  {id : EntryId} {em m : EstimateId} {place : EstimateId → EstimateId} {said : EstimateId → Trait}
  {P : EstimateId → Prop}

/-! ## Moving to the coarsest memory of the node -/

/-- A group whose memory lives in the node moves to the coarsest memory there. -/
theorem generalize_of_home (hm : l.memory? id = some m) (hn : s.tree.home m = n) :
    s.generalize n l id = l.setMemory id (s.tree.settle n m) := by
  unfold generalize
  rw [hm, AliasTree.settle_of_home hn]
  exact if_pos (beq_iff_eq.mpr hn)

/-- A group whose memory lives further inside stays where it is. -/
theorem generalize_of_ne (hm : l.memory? id = some m) (hn : s.tree.home m ≠ n) :
    s.generalize n l id = l := by
  unfold generalize
  rw [hm]
  exact if_neg fun hb => hn (beq_iff_eq.mp hb)

/-- One group settles in the node. -/
theorem generalize_step (w : s.tree.WellFormed) (a : l.Accounts s.tree place said)
    (hem : l.explicitEntry? em = some id)
    (hbelow : ∀ e, l.explicitEntry? e = some id →
      s.tree.isNodeAncestor n (s.tree.home (place e)) = true) :
    (s.generalize n l id).Accounts s.tree (l.moved id (s.tree.settle n) place) said
      ∧ (∀ e, Ledger.explicitEntry? (s.generalize n l id) e = l.explicitEntry? e)
      ∧ Ledger.Within [id] l (s.generalize n l id) := by
  have hleads := a.grouped.leads hem
  obtain ⟨m, hm⟩ := hleads.exists_memory
  have hmono (e : EstimateId) (he : l.explicitEntry? e = some id) :
      s.tree.isEstimateAncestor (s.tree.settle n m) (s.tree.settle n (place e)) = true := by
    obtain ⟨e₀, he₀, hm₀, hanc⟩ := a.stands e id he
    obtain rfl : place e₀ = m := Option.some.inj (hm₀.symm.trans hm)
    exact w.settle_mono hanc (hbelow e₀ he₀)
  by_cases hn : s.tree.home m = n
  · rw [generalize_of_home hm hn]
    exact ⟨a.setMemory hem hm hmono, fun e => l.explicitEntry?_setMemory e _,
      .setMemory hleads (List.mem_singleton.mpr rfl) _⟩
  · rw [generalize_of_ne hm hn]
    exact ⟨a.stay hm (AliasTree.settle_of_ne hn) hmono, fun _ => rfl, .refl _ l⟩

/-- All groups of the node settle in it. -/
theorem generalize_run (w : s.tree.WellFormed) (a : l.Accounts s.tree place said)
    (hnodup : ids.Nodup) (hspeaks : ∀ id ∈ ids, ∃ e, l.explicitEntry? e = some id)
    (hbelow : ∀ id ∈ ids, ∀ e, l.explicitEntry? e = some id →
      s.tree.isNodeAncestor n (s.tree.home (place e)) = true) :
    ∃ place', (ids.foldl (s.generalize n) l).Accounts s.tree place' said
      ∧ (∀ e, Ledger.explicitEntry? (ids.foldl (s.generalize n) l) e = l.explicitEntry? e)
      ∧ Ledger.Within ids l (ids.foldl (s.generalize n) l)
      ∧ ∀ e j, l.explicitEntry? e = some j →
        place' e = if j ∈ ids then s.tree.settle n (place e) else place e := by
  induction ids generalizing l place with
  | nil => exact ⟨place, a, fun _ => rfl, .refl [] l, fun _ _ _ => rfl⟩
  | cons id ids ih =>
    obtain ⟨hid, hnodup⟩ := List.nodup_cons.mp hnodup
    obtain ⟨em, hem⟩ := hspeaks id List.mem_cons_self
    obtain ⟨ha, hexplicit, hw⟩ := generalize_step w a hem (hbelow id List.mem_cons_self)
    -- The groups still to come have the members they had, at the same places.
    have hrest (j : EntryId) (hj : j ∈ ids) (e : EstimateId)
        (he : Ledger.explicitEntry? (s.generalize n l id) e = some j) :
        l.explicitEntry? e = some j ∧ l.moved id (s.tree.settle n) place e = place e := by
      rw [hexplicit] at he
      exact ⟨he, Ledger.moved_of_ne he fun hjid => hid (hjid ▸ hj)⟩
    obtain ⟨place', ha', hexplicit', hw', hplace⟩ := ih ha hnodup
      (fun j hj => (hspeaks j (List.mem_cons_of_mem id hj)).imp fun e he => (hexplicit e).trans he)
      (fun j hj e he => by
        obtain ⟨he, hstay⟩ := hrest j hj e he
        rw [hstay]
        exact hbelow j (List.mem_cons_of_mem id hj) e he)
    refine ⟨place', ha', fun e => (hexplicit' e).trans (hexplicit e),
      (hw.mono fun j hj => ?_).trans (hw'.mono fun j hj => List.mem_cons_of_mem id hj),
      fun e j he => ?_⟩
    · rw [List.mem_singleton.mp hj]
      exact List.mem_cons_self
    · rw [hplace e j ((hexplicit e).trans he)]
      by_cases hj : j = id
      · subst hj
        rw [if_neg hid, if_pos List.mem_cons_self, Ledger.moved_of_member he]
      · have hmem : j ∈ id :: ids ↔ j ∈ ids :=
          List.mem_cons.trans ⟨fun h => h.resolve_left hj, .inr⟩
        rw [Ledger.moved_of_ne he hj]
        simp only [hmem]

/-! ## Folding a group into one around it -/

/-- Neither of two groups stands at memory around the other's. -/
def Apart (s : Scope) (l : Ledger) (i j : EntryId) : Prop :=
  ∀ m m', l.memory? i = some m → l.memory? j = some m' →
    s.tree.isEstimateAncestor m m' = false ∧ s.tree.isEstimateAncestor m' m = false

/-- Being apart does not depend on which group is asked first. -/
theorem Apart.symm {i j : EntryId} (h : s.Apart l i j) : s.Apart l j i :=
  fun m m' hm hm' => (h m' m hm' hm).symm

/-- Groups that stand where they stood are apart as before. -/
theorem Apart.congr {i j : EntryId} (h : s.Apart l i j) (hi : l'.memory? i = l.memory? i)
    (hj : l'.memory? j = l.memory? j) : s.Apart l' i j :=
  fun m m' hm hm' => h m m' (hi.symm.trans hm) (hj.symm.trans hm')

/-- Folding a group into one that stands around it moves nothing. -/
theorem fold_into_outer {target : EntryId} (a : l.Accounts s.tree place said)
    (g : l.Gathers (id :: ids) P) (htarget : target ∈ ids) (hem : l.memory? id = some em)
    (hm : l.memory? target = some m) (houter : s.tree.isEstimateAncestor m em = true) :
    (l.fold id target).Accounts s.tree place said ∧ (l.fold id target).Gathers ids P
      ∧ Ledger.Within [id, target] l (l.fold id target)
      ∧ ∀ j ∈ ids, (l.fold id target).memory? j = l.memory? j := by
  have hid : id ∉ ids := (List.nodup_cons.mp g.nodup).1
  have hne : id ≠ target := fun h => hid (h ▸ htarget)
  obtain ⟨e₁, he₁, -⟩ := g.holds_of_mem List.mem_cons_self
  obtain ⟨e₂, he₂, -⟩ := g.holds_of_mem (List.mem_cons_of_mem id htarget)
  have hleads := a.grouped.leads he₁
  have hleads' := a.grouped.leads he₂
  refine ⟨?_, g.fold a.grouped htarget,
    .fold hleads hleads' hne List.mem_cons_self (List.mem_cons_of_mem id List.mem_cons_self),
    fun j hj => ?_⟩
  · refine (a.fold (f := fun e => e) he₁ he₂ hne hm fun e he => ?_).congr (fun e _ => ?_)
      fun _ _ => rfl
    · obtain ⟨e₀, -, hm₀, hanc⟩ := a.stands e id he
      rw [Option.some.inj (hm₀.symm.trans hem)] at hanc
      exact AliasTree.isEstimateAncestor_trans houter hanc
    · exact (ite_self _).symm
  · obtain ⟨e, he, -⟩ := g.holds_of_mem (List.mem_cons_of_mem id hj)
    exact Ledger.memory?_fold hleads hleads' hne (a.grouped.leads he) fun h => hid (h ▸ hj)

/-! ## Comparing a group with those kept -/

section Absorb

variable {other : EntryId} {rest : List EntryId} {otherEm : EstimateId}

/-- A kept group at memory around the new one takes it in. -/
theorem absorb_of_outer (hm : l.memory? other = some otherEm)
    (h : s.tree.isEstimateAncestor otherEm em = true) :
    s.absorb id em l (other :: rest) = (l.fold id other, other :: rest, true) := by
  rw [absorb, hm]
  exact if_pos h

/-- A kept group at memory inside the new one is folded into it, and the comparison goes on. -/
theorem absorb_of_inner (hm : l.memory? other = some otherEm)
    (houter : s.tree.isEstimateAncestor otherEm em = false)
    (h : s.tree.isEstimateAncestor em otherEm = true) :
    s.absorb id em l (other :: rest) = s.absorb id em (l.fold other id) rest := by
  rw [absorb, hm]
  exact (if_neg (Bool.eq_false_iff.mp houter)).trans (if_pos h)

/-- A kept group apart from the new one stays, and the comparison goes on. -/
theorem absorb_of_apart (hm : l.memory? other = some otherEm)
    (houter : s.tree.isEstimateAncestor otherEm em = false)
    (hinner : s.tree.isEstimateAncestor em otherEm = false) :
    s.absorb id em l (other :: rest) = ((s.absorb id em l rest).1,
      other :: (s.absorb id em l rest).2.1, (s.absorb id em l rest).2.2) := by
  rw [absorb, hm]
  exact (if_neg (Bool.eq_false_iff.mp houter)).trans (if_neg (Bool.eq_false_iff.mp hinner))

end Absorb

/-- The groups that are left when `id` was compared with those kept. -/
def survivors (id : EntryId) (r : Ledger × List EntryId × Bool) : List EntryId :=
  if r.2.2 then r.2.1 else id :: r.2.1

/-- A group that stays in front is among those that are left. -/
theorem survivors_cons (id other : EntryId) (l : Ledger) (kept : List EntryId) (b : Bool) :
    (survivors id (l, other :: kept, b)).Perm (other :: survivors id (l, kept, b)) := by
  cases b with
  | true => exact .refl _
  | false => exact .swap other id kept

/-- What is left is the new group or was kept before. -/
theorem mem_survivors {j : EntryId} {r : Ledger × List EntryId × Bool} (h : j ∈ survivors id r) :
    j = id ∨ j ∈ r.2.1 := by
  unfold survivors at h
  split at h
  · exact .inr h
  · exact List.mem_cons.mp h

/-- What comparing a group with those kept leaves: the account is kept, no group is lost but by
folding it into one around it, and those that are left stand where they stood. Unless the group was
folded itself, it is apart from all that are left. -/
structure Absorbed (s : Scope) (id : EntryId) (l : Ledger) (kept others : List EntryId)
    (place : EstimateId → EstimateId) (said : EstimateId → Trait) (P : EstimateId → Prop)
    (r : Ledger × List EntryId × Bool) : Prop where
  accounts : r.1.Accounts s.tree place said
  gathers : r.1.Gathers (survivors id r ++ others) P
  within : Ledger.Within (id :: kept) l r.1
  sublist : r.2.1.Sublist kept
  memory : ∀ j ∈ survivors id r, r.1.memory? j = l.memory? j
  apart : r.2.2 = false → ∀ j ∈ r.2.1, s.Apart l j id

namespace Absorbed

variable {other : EntryId} {rest : List EntryId} {otherEm : EstimateId}
  {r : Ledger × List EntryId × Bool}

/-- The first memory around the group's takes it in. -/
theorem of_outer (a : l.Accounts s.tree place said)
    (g : l.Gathers (id :: other :: rest ++ others) P) (hem : l.memory? id = some em)
    (hm : l.memory? other = some otherEm) (h : s.tree.isEstimateAncestor otherEm em = true) :
    Absorbed s id l (other :: rest) others place said P (l.fold id other, other :: rest, true) := by
  obtain ⟨ha, hg, hw, hsame⟩ := fold_into_outer a g List.mem_cons_self hem hm h
  refine ⟨ha, hg, hw.mono fun j hj => ?_, .refl _, fun j hj => ?_, fun h => by cases h⟩
  · rcases List.mem_cons.mp hj with rfl | hj
    · exact List.mem_cons_self
    · exact List.mem_cons_of_mem id (List.mem_singleton.mp hj ▸ List.mem_cons_self)
  · exact hsame j (List.mem_append_left others hj)

/-- A kept group inside the group's memory is folded into it before the rest is compared. -/
theorem of_inner (hw : Ledger.Within [other, id] l l')
    (hsame : ∀ j ∈ id :: rest, l'.memory? j = l.memory? j)
    (hr : Absorbed s id l' rest others place said P r) :
    Absorbed s id l (other :: rest) others place said P r where
  accounts := hr.accounts
  gathers := hr.gathers
  within := by
    refine (hw.mono fun j hj => ?_).trans (hr.within.mono fun j hj => ?_)
    · rcases List.mem_cons.mp hj with rfl | hj
      · exact List.mem_cons_of_mem id List.mem_cons_self
      · exact List.mem_singleton.mp hj ▸ List.mem_cons_self
    · rcases List.mem_cons.mp hj with rfl | hj
      · exact List.mem_cons_self
      · exact List.mem_cons_of_mem id (List.mem_cons_of_mem other hj)
  sublist := hr.sublist.cons other
  memory j hj := by
    refine (hr.memory j hj).trans (hsame j (List.mem_cons.mpr ?_))
    exact (mem_survivors hj).imp_right fun hj => hr.sublist.subset hj
  apart h j hj := by
    have hrest := hsame j (List.mem_cons_of_mem id (hr.sublist.subset hj))
    exact (hr.apart h j hj).congr hrest.symm (hsame id List.mem_cons_self).symm

/-- A kept group apart from the group stays as it is. -/
theorem of_apart (hleads : l.Leads other) (hout : other ∉ id :: rest) (hapart : s.Apart l other id)
    (hr : Absorbed s id l rest (other :: others) place said P r) :
    Absorbed s id l (other :: rest) others place said P (r.1, other :: r.2.1, r.2.2) := by
  have hperm := survivors_cons id other r.1 r.2.1 r.2.2
  constructor
  case accounts => exact hr.accounts
  case gathers =>
    exact hr.gathers.perm (List.perm_middle.trans (hperm.symm.append_right others))
  case within =>
    refine hr.within.mono fun j hj => ?_
    rcases List.mem_cons.mp hj with rfl | hj
    · exact List.mem_cons_self
    · exact List.mem_cons_of_mem id (List.mem_cons_of_mem other hj)
  case sublist => exact hr.sublist.cons_cons other
  case memory =>
    intro j hj
    rcases List.mem_cons.mp (hperm.mem_iff.mp hj) with rfl | hj
    · exact (hr.within.frame j hout hleads).2
    · exact hr.memory j hj
  case apart =>
    intro h j hj
    rcases List.mem_cons.mp hj with rfl | hj
    · exact hapart
    · exact hr.apart h j hj

end Absorbed

/-- What `absorb` leaves, by induction on the groups kept so far. -/
theorem absorb_spec (a : l.Accounts s.tree place said) (g : l.Gathers (id :: kept ++ others) P)
    (hem : l.memory? id = some em) :
    Absorbed s id l kept others place said P (s.absorb id em l kept) := by
  induction kept generalizing l others with
  | nil =>
    exact ⟨a, g, .refl _ l, .slnil, fun _ _ => rfl, fun _ j hj => absurd hj List.not_mem_nil⟩
  | cons other rest ih =>
    obtain ⟨e₁, he₁, -⟩ :=
      g.holds_of_mem (List.mem_cons_of_mem id (List.mem_append_left others List.mem_cons_self))
    have hleads := a.grouped.leads he₁
    obtain ⟨otherEm, hm⟩ := hleads.exists_memory
    -- The kept group may lie around the new one, inside it, or apart from it.
    by_cases houter : s.tree.isEstimateAncestor otherEm em = true
    · rw [absorb_of_outer hm houter]
      exact .of_outer a g hem hm houter
    · rw [Bool.not_eq_true] at houter
      by_cases hinner : s.tree.isEstimateAncestor em otherEm = true
      · rw [absorb_of_inner hm houter hinner]
        obtain ⟨ha, hg, hw, hsame⟩ :=
          fold_into_outer a (g.perm (.swap other id _)) List.mem_cons_self hm hem hinner
        have hid := (hsame id List.mem_cons_self).trans hem
        exact .of_inner hw (fun j hj => hsame j (List.mem_append_left others hj)) (ih ha hg hid)
      · rw [Bool.not_eq_true] at hinner
        rw [absorb_of_apart hm houter hinner]
        have hnodup := g.nodup
        rw [List.cons_append, List.cons_append, List.nodup_cons, List.nodup_cons] at hnodup
        obtain ⟨hid, hother, -⟩ := hnodup
        have hout : other ∉ id :: rest := by
          rw [List.mem_cons, not_or]
          exact ⟨fun h => hid (h ▸ List.mem_cons_self),
            fun h => hother (List.mem_append_left others h)⟩
        have hapart : s.Apart l other id := by
          intro m m' hm₁ hm₂
          obtain rfl := Option.some.inj (hm₁.symm.trans hm)
          obtain rfl := Option.some.inj (hm₂.symm.trans hem)
          exact ⟨houter, hinner⟩
        exact .of_apart hleads hout hapart (ih a (g.perm (List.perm_middle.symm.cons id)) hem)

/-! ## Keeping the groups of a node -/

theorem keep_eq (hlead : l.leader id = id) (hout : id ∉ kept) (hem : l.memory? id = some em) :
    s.keep (l, kept) id = ((s.absorb id em l kept).1,
      if (s.absorb id em l kept).2.2 then (s.absorb id em l kept).2.1
      else (s.absorb id em l kept).2.1 ++ [id]) := by
  unfold keep
  simp only [hlead, hem]
  exact if_neg hout

/-- Of the groups kept and one more, those are kept that are apart. -/
theorem keep_step (a : l.Accounts s.tree place said) (g : l.Gathers (kept ++ id :: queue) P)
    (hkept : kept.Pairwise (s.Apart l)) :
    (s.keep (l, kept) id).1.Accounts s.tree place said
      ∧ (s.keep (l, kept) id).1.Gathers ((s.keep (l, kept) id).2 ++ queue) P
      ∧ (s.keep (l, kept) id).2.Pairwise (s.Apart (s.keep (l, kept) id).1)
      ∧ Ledger.Within (id :: kept) l (s.keep (l, kept) id).1
      ∧ ∀ j ∈ (s.keep (l, kept) id).2, j ∈ id :: kept := by
  have hg : l.Gathers (id :: kept ++ queue) P := g.perm List.perm_middle
  obtain ⟨e₁, he₁, -⟩ := hg.holds_of_mem List.mem_cons_self
  have hleads := a.grouped.leads he₁
  obtain ⟨em, hem⟩ := hleads.exists_memory
  have hout : id ∉ kept := fun h =>
    (List.nodup_cons.mp hg.nodup).1 (List.mem_append_left queue h)
  have hr := absorb_spec a hg hem
  rw [keep_eq hleads.leader_eq hout hem]
  -- The list that is kept holds the survivors; the group itself comes last instead of first.
  have hperm : (survivors id (s.absorb id em l kept)).Perm
      (if (s.absorb id em l kept).2.2 then (s.absorb id em l kept).2.1
        else (s.absorb id em l kept).2.1 ++ [id]) := by
    unfold survivors
    split
    · exact .refl _
    · exact (List.perm_append_singleton id _).symm
  have hpairwise : List.Pairwise (s.Apart l)
      (if (s.absorb id em l kept).2.2 then (s.absorb id em l kept).2.1
        else (s.absorb id em l kept).2.1 ++ [id]) := by
    have hrest := hkept.sublist hr.sublist
    split
    · exact hrest
    next hb =>
      rw [List.pairwise_append]
      refine ⟨hrest, List.pairwise_singleton .., fun i hi j hj => ?_⟩
      rw [List.mem_singleton.mp hj]
      exact hr.apart (Bool.eq_false_iff.mpr hb) i hi
  refine ⟨hr.accounts, hr.gathers.perm (hperm.append_right queue),
    hpairwise.imp_of_mem fun hi hj h => ?_, hr.within, fun j hj => ?_⟩
  · exact h.congr (hr.memory _ (hperm.mem_iff.mpr hi)) (hr.memory _ (hperm.mem_iff.mpr hj))
  · exact List.mem_cons.mpr ((mem_survivors (hperm.mem_iff.mpr hj)).imp_right
      fun hj => hr.sublist.subset hj)

/-- Of all groups of a node those are kept that are apart. -/
theorem keep_run (a : l.Accounts s.tree place said) (g : l.Gathers (kept ++ queue) P)
    (hkept : kept.Pairwise (s.Apart l)) :
    (queue.foldl s.keep (l, kept)).1.Accounts s.tree place said
      ∧ (queue.foldl s.keep (l, kept)).1.Gathers (queue.foldl s.keep (l, kept)).2 P
      ∧ (queue.foldl s.keep (l, kept)).2.Pairwise (s.Apart (queue.foldl s.keep (l, kept)).1)
      ∧ Ledger.Within (kept ++ queue) l (queue.foldl s.keep (l, kept)).1
      ∧ ∀ j ∈ (queue.foldl s.keep (l, kept)).2, j ∈ kept ++ queue := by
  induction queue generalizing l kept with
  | nil =>
    rw [List.append_nil] at g
    exact ⟨a, g, hkept, .refl _ l, fun j hj => List.mem_append_left [] hj⟩
  | cons id queue ih =>
    obtain ⟨ha, hg, hpairwise, hw, hsub⟩ := keep_step a g hkept
    obtain ⟨ha', hg', hpairwise', hw', hsub'⟩ := ih ha hg hpairwise
    have hhead (j : EntryId) (hj : j ∈ id :: kept) : j ∈ kept ++ id :: queue := by
      rcases List.mem_cons.mp hj with rfl | hj
      · exact List.mem_append_right kept List.mem_cons_self
      · exact List.mem_append_left _ hj
    have hincl (j : EntryId) (hj : j ∈ (s.keep (l, kept) id).2 ++ queue) :
        j ∈ kept ++ id :: queue := by
      rcases List.mem_append.mp hj with hj | hj
      · exact hhead j (hsub j hj)
      · exact List.mem_append_right kept (List.mem_cons_of_mem id hj)
    exact ⟨ha', hg', hpairwise', (hw.mono hhead).trans (hw'.mono hincl),
      fun j hj => hincl j (hsub' j hj)⟩

/-- What a node makes of the groups it collected. -/
theorem foldDuplicates_spec (w : s.tree.WellFormed) (a : l.Accounts s.tree place said)
    (g : l.Gathers ids P)
    (hbelow : ∀ e ∈ l.explicit.keys, P e →
      s.tree.isNodeAncestor n (s.tree.home (place e)) = true) :
    ∃ place', (s.foldDuplicates n l ids).1.Accounts s.tree place' said
      ∧ (s.foldDuplicates n l ids).1.Gathers (s.foldDuplicates n l ids).2 P
      ∧ (s.foldDuplicates n l ids).2.Pairwise (s.Apart (s.foldDuplicates n l ids).1)
      ∧ Ledger.Within ids l (s.foldDuplicates n l ids).1
      ∧ (∀ j ∈ (s.foldDuplicates n l ids).2, j ∈ ids)
      ∧ ∀ e ∈ l.explicit.keys,
        (P e → place' e = s.tree.settle n (place e)) ∧ (¬P e → place' e = place e) := by
  obtain ⟨place', ha, hexplicit, hw, hplace⟩ := generalize_run w a g.nodup g.speaks
    fun id hid e he => hbelow e (Ledger.mem_explicit_keys.mpr ⟨id, he⟩) ((g.holds e id he).mp hid)
  have hg : (ids.foldl (s.generalize n) l).Gathers ([] ++ ids) P := g.congr_ledger hexplicit
  obtain ⟨ha', hg', hpairwise, hw', hsub⟩ := keep_run ha hg .nil
  refine ⟨place', ha', hg', hpairwise, hw.trans hw', hsub, fun e he => ?_⟩
  obtain ⟨j, hj⟩ := Ledger.mem_explicit_keys.mp he
  rw [hplace e j hj, ← g.holds e j hj]
  exact ⟨fun h => if_pos h, fun h => if_neg h⟩

end Privatization.Scope
