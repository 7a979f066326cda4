import Privatization.Classification.Summary

/-!
# Meets of observations

`Trait.meet` is a meet of a semilattice with `Trait.noAccess` at the top, so a list of observations
has one value whatever order and how often they are met (`meetAll`). Above the dependence, the
components of a meet are the disjunctions of the components that were met (`flag_meetAll`): one
read, one shared or one live observation is enough to set the component for good. What is reported
about a value is read off these components.
-/

namespace Privatization

/-! ## Values one by one

The lattice is finite, so what is tested of a value can be decided for all of them. -/

/-- There are five ways to copy out. -/
instance CopyOut.decidableForall (p : CopyOut → Prop) [DecidablePred p] : Decidable (∀ k, p k) :=
  decidable_of_iff (p .unwritten ∧ p .dead ∧ p .secondToLast ∧ p .last ∧ p .dynamic)
    ⟨fun ⟨hunwritten, hdead, hsecond, hlast, hdynamic⟩ k => by cases k <;> assumption,
      fun h => ⟨h _, h _, h _, h _, h _⟩⟩

/-- An access is a dependence, or one of finitely many combinations. -/
instance Access.decidableForall (p : Access → Prop) [DecidablePred p] : Decidable (∀ a, p a) :=
  decidable_of_iff (p .dependency ∧ ∀ k r s, p (.independent k r s))
    ⟨fun ⟨hdependency, hindependent⟩ a => match a with
      | .dependency => hdependency
      | .independent k r s => hindependent k r s,
      fun h => ⟨h _, fun _ _ _ => h _⟩⟩

/-- The values, with or without an escaping address, are finitely many, so a test of all of them can
be decided. -/
instance Trait.decidableForall (p : Trait → Prop) [DecidablePred p] : Decidable (∀ v, p v) :=
  decidable_of_iff (∀ access address, p ⟨access, address⟩)
    ⟨fun h v => h v.access v.addressAccess, fun h access address => h ⟨access, address⟩⟩

/-- The lower bound of two ways to copy out does not depend on their order. -/
theorem CopyOut.meet_comm (a b : CopyOut) : a.meet b = b.meet a := by
  cases a <;> cases b <;> rfl

theorem CopyOut.meet_assoc (a b c : CopyOut) : (a.meet b).meet c = a.meet (b.meet c) := by
  cases a <;> cases b <;> cases c <;> rfl

theorem CopyOut.meet_self (a : CopyOut) : a.meet a = a := by
  cases a <;> rfl

namespace Access

theorem meet_comm (a b : Access) : a.meet b = b.meet a := by
  cases a <;> cases b <;> simp [meet, CopyOut.meet_comm, Bool.or_comm]

theorem meet_assoc (a b c : Access) : (a.meet b).meet c = a.meet (b.meet c) := by
  cases a <;> cases b <;> cases c <;> simp [meet, CopyOut.meet_assoc, Bool.or_assoc]

theorem meet_self (a : Access) : a.meet a = a := by
  cases a <;> simp [meet, CopyOut.meet_self]

/-- Untouched memory adds nothing to an access. -/
theorem meet_top (a : Access) : a.meet (independent .unwritten false false) = a := by
  cases a with
  | dependency => rfl
  | independent k r s => cases k <;> simp [meet, CopyOut.meet]

end Access

namespace Trait

/-! ## Laws of the meet -/

/-- The order of two observations does not matter. -/
theorem meet_comm (a b : Trait) : a.meet b = b.meet a := by
  unfold meet
  rw [Access.meet_comm, Bool.or_comm]

/-- The grouping of observations does not matter. -/
theorem meet_assoc (a b c : Trait) : (a.meet b).meet c = a.meet (b.meet c) := by
  unfold meet
  rw [Access.meet_assoc, Bool.or_assoc]

/-- It does not matter how often the same is observed. -/
theorem meet_self (a : Trait) : a.meet a = a := by
  unfold meet
  rw [Access.meet_self, Bool.or_self]

/-- That nothing was accessed adds nothing. -/
theorem meet_noAccess (a : Trait) : a.meet noAccess = a := by
  show (⟨a.access.meet (.independent .unwritten false false), a.addressAccess || false⟩ : Trait) = a
  rw [Access.meet_top, Bool.or_false]

theorem noAccess_meet (a : Trait) : noAccess.meet a = a := by
  rw [meet_comm, meet_noAccess]

theorem meet_left_comm (a b c : Trait) : a.meet (b.meet c) = b.meet (a.meet c) := by
  rw [← meet_assoc, meet_comm a b, meet_assoc]

/-- A value that was met once is absorbed the second time. -/
theorem meet_meet_self (a b : Trait) : a.meet (a.meet b) = a.meet b := by
  rw [← meet_assoc, meet_self]

/-! ## Observations under a condition -/

/-- An observation that is made under a condition only. -/
def onlyIf (b : Bool) (v : Trait) : Trait := if b then v else noAccess

/-- An observation under one of two conditions is one under each. -/
theorem onlyIf_or (a b : Bool) (v : Trait) :
    onlyIf (a || b) v = (onlyIf a v).meet (onlyIf b v) := by
  cases a <;> cases b
  · exact (meet_noAccess noAccess).symm
  · exact (noAccess_meet v).symm
  · exact (meet_noAccess v).symm
  · exact (meet_self v).symm

/-! ## Meets of lists -/

/-- The meet of a list of observations; of none, nothing is said. -/
def meetAll (l : List Trait) : Trait := l.foldr meet noAccess

@[simp] theorem meetAll_nil : meetAll [] = noAccess := rfl

@[simp] theorem meetAll_cons (a : Trait) (l : List Trait) : meetAll (a :: l) = a.meet (meetAll l) :=
  rfl

theorem meetAll_singleton (a : Trait) : meetAll [a] = a := meet_noAccess a

/-- An observation that was met holds of the meet. -/
theorem meet_meetAll_of_mem {a : Trait} {l : List Trait} (h : a ∈ l) :
    a.meet (meetAll l) = meetAll l := by
  induction l with
  | nil => cases h
  | cons b l ih =>
    rcases List.mem_cons.mp h with rfl | h
    · exact meet_meet_self a _
    · rw [meetAll_cons, meet_left_comm, ih h]

/-- Where everything observed is the same, so is the meet. -/
theorem meetAll_eq {v : Trait} {l : List Trait} (hne : l ≠ []) (h : ∀ a ∈ l, a = v) :
    meetAll l = v := by
  induction l with
  | nil => exact absurd rfl hne
  | cons a l ih =>
    rw [meetAll_cons, h a List.mem_cons_self]
    by_cases hl : l = []
    · rw [hl, meetAll_nil, meet_noAccess]
    · rw [ih hl fun b hb => h b (List.mem_cons_of_mem a hb), meet_self]

/-- The observations `c` makes on the keys that satisfy `p`, met. -/
def meetOver {α : Type} (keys : List α) (p : α → Bool) (c : α → Trait) : Trait :=
  meetAll ((keys.filter p).map c)

variable {α : Type} {keys : List α} {p q : α → Bool} {c d : α → Trait}

/-- The meet depends on what counts and on what is observed there. -/
theorem meetOver_congr (hp : ∀ k ∈ keys, p k = q k) (hc : ∀ k ∈ keys, q k = true → c k = d k) :
    meetOver keys p c = meetOver keys q d := by
  unfold meetOver
  rw [List.filter_congr hp]
  congr 1
  refine List.map_congr_left fun k hk => ?_
  obtain ⟨hk, hq⟩ := List.mem_filter.mp hk
  exact hc k hk hq

/-- A key in front is met first, if it counts. -/
theorem meetOver_cons (k : α) :
    meetOver (k :: keys) p c
      = if p k then (c k).meet (meetOver keys p c) else meetOver keys p c := by
  unfold meetOver
  by_cases h : p k = true
  · rw [if_pos h, List.filter_cons_of_pos h, List.map_cons, meetAll_cons]
  · rw [if_neg h, List.filter_cons_of_neg h]

/-- The meet over a union is the meet of the meets, overlapping or not. -/
theorem meetOver_or :
    meetOver keys (fun k => p k || q k) c = (meetOver keys p c).meet (meetOver keys q c) := by
  induction keys with
  | nil => exact (meet_noAccess _).symm
  | cons k keys ih =>
    rw [meetOver_cons, meetOver_cons, meetOver_cons, ih]
    -- By whether the first key counts on the left, on the right, or on both.
    cases p k <;> cases q k
    · rfl
    · exact meet_left_comm (c k) _ _
    · exact (meet_assoc (c k) _ _).symm
    · -- Both sides hold the key: the right one meets `c k` twice.
      show (c k).meet (_ : Trait) = ((c k).meet _).meet ((c k).meet _)
      rw [meet_assoc (c k), meet_left_comm _ (c k), meet_meet_self]

/-- The meet over a single key is what is observed on it. -/
theorem meetOver_eq [DecidableEq α] {k : α} (hnodup : keys.Nodup) (hk : k ∈ keys) :
    meetOver keys (fun j => decide (j = k)) c = c k := by
  induction keys with
  | nil => cases hk
  | cons j keys ih =>
    obtain ⟨hj, hnodup⟩ := List.nodup_cons.mp hnodup
    rw [meetOver_cons]
    by_cases hjk : j = k
    · subst hjk
      have hnone : keys.filter (fun i => decide (i = j)) = [] := by
        rw [List.filter_eq_nil_iff]
        intro i hi hij
        exact hj (of_decide_eq_true hij ▸ hi)
      rw [if_pos (decide_eq_true rfl), meetOver, hnone]
      exact meet_noAccess _
    · rw [if_neg (by rw [decide_eq_true_iff]; exact hjk)]
      exact ih hnodup ((List.mem_cons.mp hk).resolve_left (Ne.symm hjk))

/-- Observations that all gained the same addition gained it once. -/
theorem meetOver_meet {extra : Trait} {k : α} (hk : k ∈ keys) (hp : p k = true) :
    meetOver keys p (fun k => (c k).meet extra) = (meetOver keys p c).meet extra := by
  have hstep (l : List α) (hne : l ≠ []) :
      meetAll (l.map fun k => (c k).meet extra) = (meetAll (l.map c)).meet extra := by
    induction l with
    | nil => exact absurd rfl hne
    | cons a l ih =>
      cases l with
      | nil => rw [List.map_singleton, List.map_singleton, meetAll_singleton, meetAll_singleton]
      | cons b l =>
        rw [List.map_cons, meetAll_cons, ih (List.cons_ne_nil b l)]
        show ((c a).meet extra).meet (_ : Trait)
          = ((c a).meet (meetAll ((b :: l).map c))).meet extra
        rw [meet_assoc (c a), meet_left_comm extra, meet_self, meet_assoc]
  exact hstep _ (List.ne_nil_of_mem (List.mem_filter.mpr ⟨hk, hp⟩))

/-- Two lists are met one after the other. -/
theorem meetAll_append (l l' : List Trait) :
    meetAll (l ++ l') = (meetAll l).meet (meetAll l') := by
  induction l with
  | nil => exact (noAccess_meet _).symm
  | cons a l ih => rw [List.cons_append, meetAll_cons, meetAll_cons, ih, meet_assoc]

/-- The order of a list does not matter. -/
theorem meetAll_perm {l l' : List Trait} (h : l.Perm l') : meetAll l = meetAll l' :=
  h.foldr_eq' (fun a _ b _ v => meet_left_comm b a v) noAccess

/-- The order of the keys of a meet does not matter. -/
theorem meetOver_perm {α : Type} {keys keys' : List α} (h : keys.Perm keys') (p : α → Bool)
    (c : α → Trait) : meetOver keys p c = meetOver keys' p c :=
  meetAll_perm ((h.filter p).map c)

/-- One more key adds what is observed on it, if it counts. -/
theorem meetOver_concat (k : α) :
    meetOver (keys ++ [k]) p c = (meetOver keys p c).meet (onlyIf (p k) (c k)) := by
  unfold meetOver
  rw [List.filter_append, List.map_append, meetAll_append]
  cases h : p k with
  | false =>
    rw [List.filter_cons_of_neg (by rw [h]; exact Bool.false_ne_true)]
    rfl
  | true =>
    rw [List.filter_cons_of_pos h]
    exact congrArg _ (meetAll_singleton (c k))

/-- What is observed on a key that counts holds of the meet. -/
theorem meet_meetOver_of_mem {k : α} (hk : k ∈ keys) (hp : p k = true) :
    (c k).meet (meetOver keys p c) = meetOver keys p c :=
  meet_meetAll_of_mem (List.mem_map.mpr ⟨k, List.mem_filter.mpr ⟨hk, hp⟩, rfl⟩)

/-! ## Components -/

/-- Whether a value is no dependence and its components satisfy `f`. -/
def flag (f : CopyOut → Bool → Bool → Bool) (a : Trait) : Bool :=
  match a.access with
  | .dependency => false
  | .independent k read shared => f k read shared

/-- Whether the value from before the loop may be read. -/
def reads : Trait → Bool := flag fun _ read _ => read

/-- Whether all iterations may use the one copy from before the loop. -/
def shares : Trait → Bool := flag fun _ _ shared => shared

/-- Whether the memory is written. -/
def writes : Trait → Bool := flag fun k _ _ => k != .unwritten

/-- Whether a value that is written survives the loop. -/
def survives : Trait → Bool := flag fun k _ _ => !(k == .unwritten || k == .dead)

/-- A meet is a dependence if one of both is. -/
theorem isDependency_meet (a b : Trait) :
    (a.meet b).isDependency = (a.isDependency || b.isDependency) := by
  obtain ⟨x, -⟩ := a
  obtain ⟨y, -⟩ := b
  cases x <;> cases y <;> rfl

/-- The meet of a list is a dependence if one of its observations is. -/
theorem isDependency_meetAll (l : List Trait) :
    (meetAll l).isDependency = l.any isDependency := by
  induction l with
  | nil => rfl
  | cons a l ih => rw [meetAll_cons, isDependency_meet, ih, List.any_cons]

/-- A component that a meet turns into a disjunction is set by one observation. -/
theorem flag_meetAll {f : CopyOut → Bool → Bool → Bool}
    (htop : f .unwritten false false = false)
    (hmeet : ∀ k₁ k₂ r₁ r₂ s₁ s₂,
      f (k₁.meet k₂) (r₁ || r₂) (s₁ || s₂) = (f k₁ r₁ s₁ || f k₂ r₂ s₂))
    {l : List Trait} (h : (meetAll l).isDependency = false) :
    flag f (meetAll l) = l.any (flag f) := by
  induction l with
  | nil => exact htop
  | cons a l ih =>
    rw [meetAll_cons, isDependency_meet, Bool.or_eq_false_iff] at h
    rw [List.any_cons, ← ih h.2, meetAll_cons]
    obtain ⟨ha, hl⟩ := h
    -- Neither part is a dependence, so both have components.
    revert ha hl
    obtain ⟨x, -⟩ := a
    generalize meetAll l = b
    obtain ⟨y, -⟩ := b
    cases x with
    | dependency => intro ha; cases ha
    | independent k₁ r₁ s₁ =>
      cases y with
      | dependency => intro _ hl; cases hl
      | independent k₂ r₂ s₂ => exact fun _ _ => hmeet k₁ k₂ r₁ r₂ s₁ s₂

/-- A component that was observed once is there for good, unless all is lost in a dependence. -/
theorem flag_meet {f : CopyOut → Bool → Bool → Bool}
    (hmeet : ∀ k₁ k₂ r₁ r₂ s₁ s₂,
      f (k₁.meet k₂) (r₁ || r₂) (s₁ || s₂) = (f k₁ r₁ s₁ || f k₂ r₂ s₂))
    {a : Trait} (b : Trait) (h : a.isDependency = true ∨ flag f a = true) :
    (a.meet b).isDependency = true ∨ flag f (a.meet b) = true := by
  obtain ⟨x, _⟩ := a
  obtain ⟨y, _⟩ := b
  cases x with
  | dependency => exact .inl rfl
  | independent k₁ r₁ s₁ =>
    cases y with
    | dependency => exact .inl rfl
    | independent k₂ r₂ s₂ =>
      have hf : f k₁ r₁ s₁ = true := h.resolve_left (fun h => (by cases h))
      refine .inr ((hmeet k₁ k₂ r₁ r₂ s₁ s₂).trans ?_)
      rw [hf, Bool.true_or]

/-- A read stays, unless all is lost. -/
theorem reads_meet {a : Trait} (b : Trait) (h : a.isDependency = true ∨ a.reads = true) :
    (a.meet b).isDependency = true ∨ (a.meet b).reads = true :=
  flag_meet (fun _ _ _ _ _ _ => rfl) b h

/-- A value that survives still does after a meet, unless all is lost. -/
theorem survives_meet {a : Trait} (b : Trait) (h : a.isDependency = true ∨ a.survives = true) :
    (a.meet b).isDependency = true ∨ (a.meet b).survives = true :=
  flag_meet (fun k₁ k₂ _ _ _ _ => by cases k₁ <;> cases k₂ <;> rfl) b h

/-- Observations let memory be shared if one of them does and none is a dependence. -/
theorem shares_meetAll_iff {l : List Trait} : shares (meetAll l) = true ↔
    (∀ a ∈ l, a.isDependency = false) ∧ ∃ a ∈ l, shares a = true := by
  have hany : (meetAll l).isDependency = false ↔ ∀ a ∈ l, a.isDependency = false := by
    rw [isDependency_meetAll, List.any_eq_false]
    exact forall₂_congr fun a _ => Bool.eq_false_iff.symm
  rw [← hany, ← List.any_eq_true]
  constructor
  · intro h
    have hnone : (meetAll l).isDependency = false := by
      generalize meetAll l = v at h
      obtain ⟨access, address⟩ := v
      cases access with
      | dependency => cases h
      | independent k r s => rfl
    refine ⟨hnone, ?_⟩
    rw [← h]
    exact (flag_meetAll rfl (fun _ _ _ _ _ _ => rfl) hnone).symm
  · rintro ⟨hnone, h⟩
    exact (flag_meetAll rfl (fun _ _ _ _ _ _ => rfl) hnone).trans h

/-- Above the dependence, memory is written if one observation says so. -/
theorem writes_meetAll {l : List Trait} (h : (meetAll l).isDependency = false) :
    writes (meetAll l) = l.any writes :=
  flag_meetAll rfl (fun k₁ k₂ _ _ _ _ => by cases k₁ <;> cases k₂ <;> rfl) h

/-! ## Copies from before the loop -/

/-- What is said about memory that gets a copy of its value from before the loop, if it gets one. -/
def copyIn (copied : Bool) : Trait := onlyIf copied readonly

/-- A copy for one of two reasons is one for each. -/
theorem copyIn_or (a b : Bool) : copyIn (a || b) = (copyIn a).meet (copyIn b) :=
  onlyIf_or a b readonly

/-- Memory gets its copy if any of its pieces does. -/
theorem meetOver_copyIn (b : α → Bool) :
    meetOver keys p (fun k => (c k).meet (copyIn (b k)))
      = (meetOver keys p c).meet (copyIn (keys.any fun k => p k && b k)) := by
  induction keys with
  | nil => rfl
  | cons k keys ih =>
    rw [meetOver_cons, meetOver_cons, ih, List.any_cons, copyIn_or]
    -- A key that does not count brings neither its observation nor its copy.
    cases p k with
    | false =>
      show _ = (meetOver keys p c).meet (noAccess.meet _)
      rw [noAccess_meet]
      rfl
    | true =>
      show ((c k).meet (copyIn (b k))).meet ((meetOver keys p c).meet _)
        = ((c k).meet (meetOver keys p c)).meet ((copyIn (b k)).meet _)
      rw [meet_assoc, meet_assoc, meet_left_comm (copyIn (b k))]

section Wanted

variable {v : Trait}

/-- Where the last values are copied out and nothing is copied in yet, becoming first private is the
same as being read. -/
theorem meet_firstPrivate_of_meets (h : v.categories.has .firstPrivate = false)
    (hlast : v.categories.meets {.lastPrivate, .secondToLastPrivate} = true) :
    v.meet firstPrivate = v.meet readonly
      ∧ v.categories ∪ {.firstPrivate} = (v.meet readonly).categories := by
  decide +revert

/-- Memory that is read where its last values are copied out is reported as first private. -/
theorem has_firstPrivate_of_readonly
    (hlast : (v.meet readonly).categories.meets {.lastPrivate, .secondToLastPrivate} = true) :
    (v.meet readonly).categories.has .firstPrivate = true := by
  decide +revert

end Wanted

/-! ## Marking explicit accesses -/

/-- No value calls for the mark of an explicit access, so the mark can be taken off a report. -/
theorem categories_sdiff_explicit (v : Trait) :
    v.categories \ {.explicitAccess} = v.categories
      ∧ (v.categories ∪ {.explicitAccess}) \ {.explicitAccess} = v.categories := by
  decide +revert

/-- A node with several constituents is never reported as untouched. -/
theorem has_noAccess_summary (v : Trait) :
    (v.meet v.summary).categories.has .noAccess = false := by
  decide +revert

/-- Untouched memory is not shared. -/
theorem has_shared_of_noAccess {v : Trait} (h : v.categories.has .noAccess = true) :
    v.categories.has .shared = false := by
  decide +revert

end Trait

end Privatization
