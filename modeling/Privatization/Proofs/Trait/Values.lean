import Privatization.Proofs.Collection.Lists
import Privatization.Proofs.Trait.Meet

/-!
# The values of memory

Not every element of the lattice comes up as the value of memory. Memory that is not written is
never shared, and where the value that survives is not that of the last iteration, the value from
before the loop is read (`regular`). Meets keep this (`regular_meetAll`), and regular values are
reported under ten sets of categories (`categories_mem_ofMemory`). Three properties of a meet can be
told from what was met: that nothing is accessed, that nothing but reads happens, and that an
address escapes (`is_noAccess_meetAll`, `is_readonly_meetAll`, `addressAccess_meetAll`).
-/

namespace Privatization

/-- What memory is reported under, markers left out. -/
def Categories.ofMemory : List Categories :=
  [{.noAccess}, {.readonly}, {.shared}, {.private_}, {.firstPrivate}, {.lastPrivate},
    {.lastPrivate, .firstPrivate}, {.secondToLastPrivate, .firstPrivate},
    {.dynamicPrivate, .firstPrivate}, Categories.dependency]

namespace Trait

variable {v : Trait} {l : List Trait}

/-! ## What a meet keeps -/

/-- What holds of a meet exactly if it holds of both sides holds of the meet of a list exactly if it
holds of all. -/
theorem meetAll_eq_all {p : Trait → Bool} (htop : p noAccess = true)
    (hmeet : ∀ a b, p (a.meet b) = (p a && p b)) (l : List Trait) : p (meetAll l) = l.all p := by
  induction l with
  | nil => exact htop
  | cons a l ih => rw [meetAll_cons, hmeet, ih, List.all_cons]

/-- A component that only a meet of components has which both have it. -/
theorem flag_meet_and {f : CopyOut → Bool → Bool → Bool}
    (hmeet : ∀ k₁ k₂ r₁ r₂ s₁ s₂,
      f (k₁.meet k₂) (r₁ || r₂) (s₁ || s₂) = (f k₁ r₁ s₁ && f k₂ r₂ s₂)) (a b : Trait) :
    flag f (a.meet b) = (flag f a && flag f b) := by
  obtain ⟨x, _⟩ := a
  obtain ⟨y, _⟩ := b
  cases x with
  | dependency => rfl
  | independent k₁ r₁ s₁ =>
    cases y with
    | dependency => exact (Bool.and_false _).symm
    | independent k₂ r₂ s₂ => exact hmeet k₁ k₂ r₁ r₂ s₁ s₂

/-- Whether nothing happens to the memory but reads, if anything does. -/
def onlyRead (v : Trait) : Bool := v.is .readonly || v.is .noAccess

/-- Nothing is accessed if nothing is written, read or shared. -/
theorem is_noAccess_eq (v : Trait) :
    v.is .noAccess = flag (fun k read shared => k == .unwritten && !read && !shared) v := by
  decide +revert

/-- Nothing happens but reads if nothing is written or shared. -/
theorem onlyRead_eq (v : Trait) :
    v.onlyRead = flag (fun k _ shared => k == .unwritten && !shared) v := by
  decide +revert

/-- Memory is read only if nothing happens to it but reads, and something does. -/
theorem is_readonly_eq (v : Trait) : v.is .readonly = (v.onlyRead && !v.is .noAccess) := by
  decide +revert

/-- What is met is untouched if both sides are. -/
theorem is_noAccess_meet (a b : Trait) :
    (a.meet b).is .noAccess = (a.is .noAccess && b.is .noAccess) := by
  rw [is_noAccess_eq, is_noAccess_eq, is_noAccess_eq]
  refine flag_meet_and (fun k₁ k₂ r₁ r₂ s₁ s₂ => ?_) a b
  cases k₁ <;> cases k₂ <;> cases r₁ <;> cases s₁ <;> cases r₂ <;> cases s₂ <;> rfl

/-- What is met is read at most if both sides are. -/
theorem onlyRead_meet (a b : Trait) : (a.meet b).onlyRead = (a.onlyRead && b.onlyRead) := by
  rw [onlyRead_eq, onlyRead_eq, onlyRead_eq]
  refine flag_meet_and (fun k₁ k₂ _ _ s₁ s₂ => ?_) a b
  cases k₁ <;> cases k₂ <;> cases s₁ <;> cases s₂ <;> rfl

/-- Memory is untouched if every observation of it says so. -/
theorem is_noAccess_meetAll (l : List Trait) :
    (meetAll l).is .noAccess = l.all (·.is .noAccess) :=
  meetAll_eq_all (p := (·.is .noAccess)) rfl is_noAccess_meet l

/-- Memory is read only if nothing but reads was observed and one of them was. -/
theorem is_readonly_meetAll (l : List Trait) :
    (meetAll l).is .readonly = (l.all onlyRead && l.any (·.is .readonly)) := by
  rw [is_readonly_eq, meetAll_eq_all rfl onlyRead_meet, is_noAccess_meetAll]
  cases hall : l.all onlyRead with
  | false => rfl
  | true =>
    -- Where nothing but reads happens, what is accessed is read.
    rw [Bool.true_and, Bool.true_and, List.not_all_eq_any_not]
    refine any_congr_of_mem fun a ha => ?_
    rw [is_readonly_eq, List.all_eq_true.mp hall a ha, Bool.true_and]

/-- An address escapes if one observation says so. -/
theorem addressAccess_meetAll (l : List Trait) :
    (meetAll l).addressAccess = l.any (·.addressAccess) := by
  induction l with
  | nil => rfl
  | cons a l ih =>
    rw [List.any_cons, ← ih]
    rfl

/-! ## Regular values -/

/-- Whether unwritten memory is not shared, and the value from before the loop is read where another
value than that of the last iteration may survive. -/
def regular (v : Trait) : Bool :=
  match v.access with
  | .dependency => true
  | .independent .unwritten _ shared => !shared
  | .independent .secondToLast read _ | .independent .dynamic read _ => read
  | .independent _ _ _ => true

/-- A meet of regular values is regular. -/
theorem regular_meet {a b : Trait} (ha : a.regular = true) (hb : b.regular = true) :
    (a.meet b).regular = true := by
  obtain ⟨x, _⟩ := a
  obtain ⟨y, _⟩ := b
  cases x with
  | dependency => rfl
  | independent k₁ r₁ s₁ =>
    cases y with
    | dependency => rfl
    | independent k₂ r₂ s₂ =>
      show (⟨.independent (k₁.meet k₂) (r₁ || r₂) (s₁ || s₂), _⟩ : Trait).regular = true
      -- A meet may be the first to copy out another value than the last one, and then one side
      -- read.
      cases k₁ <;> cases k₂ <;> simp_all [regular, CopyOut.meet]

/-- A meet of any number of regular values is regular. -/
theorem regular_meetAll (h : ∀ a ∈ l, a.regular = true) : (meetAll l).regular = true := by
  induction l with
  | nil => rfl
  | cons a l ih =>
    refine regular_meet (h a List.mem_cons_self) (ih fun b hb => ?_)
    exact h b (List.mem_cons_of_mem a hb)

/-! ## Reports of values -/

/-- The mark for an escaping address is read off the value. -/
theorem has_addressAccess (v : Trait) : v.categories.has .addressAccess = v.addressAccess := by
  decide +revert

/-- The mark for explicit accesses is no part of a value. -/
theorem has_explicitAccess (v : Trait) : v.categories.has .explicitAccess = false := by
  decide +revert

/-- A regular value is reported under one of the ten sets. -/
theorem categories_mem_ofMemory (h : v.regular = true) :
    v.categories \ Categories.markers ∈ Categories.ofMemory := by
  decide +revert

/-- Untouched memory, and no other, is reported as untouched. -/
theorem categories_eq_noAccess :
    v.categories \ Categories.markers = {.noAccess} ↔ v.is .noAccess = true := by
  decide +revert

/-- Memory that is only read, and no other, is reported as read only. -/
theorem categories_eq_readonly :
    v.categories \ Categories.markers = {.readonly} ↔ v.is .readonly = true := by
  decide +revert

/-- What stands for several regular values is read only, or it is a dependence. -/
theorem categories_meet_summary (h : v.regular = true) :
    (v.meet v.summary).categories \ Categories.markers
      = if v.is .readonly then {.readonly} else Categories.dependency := by
  decide +revert

/-- The summary of a value adds no escaping address. -/
theorem addressAccess_meet_summary (v : Trait) :
    (v.meet v.summary).addressAccess = v.addressAccess := by
  decide +revert

end Trait

/-- The ten sets are different from each other. -/
example : Categories.ofMemory.Nodup := by decide

end Privatization
