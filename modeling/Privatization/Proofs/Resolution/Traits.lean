import Privatization.Proofs.Resolution.Demotion

/-!
# What the passes find

The trait the three passes leave for each memory, without following them: the meet of what its
accesses say (`accessed`), a dependence if it is reached through a pointer that may change and does
not tolerate that (`demoted`), and the mark of its address if that escapes (`escapes`). The passes
over accesses and over addresses are followed step by step. The pass over pointers demotes at once,
and before the propagation every memory is alone in its group (`demotedBy_eq`).
-/

namespace Privatization.Scope

variable {s : Scope} {l l' : Ledger} {d : DependenceMap} {em : EstimateId} {loc : MemoryLocation}
  {done : List MemoryLocation}

/-! ## The closed form -/

/-- Whether a location is one of `em`. -/
def locates (s : Scope) (em : EstimateId) (loc : MemoryLocation) : Bool :=
  s.tree.find? loc == some em

/-- Whether the loop accesses a memory by name. -/
def named (s : Scope) (em : EstimateId) : Bool := s.defUse.explicit.any (s.locates em)

/-- What the accesses of the loop say about a memory. -/
def accessed (s : Scope) (d : DependenceMap) (em : EstimateId) : Trait :=
  .meetOver s.defUse.explicit (s.locates em) (s.accessTrait (d.contains em))

/-- Whether the loop may change the pointer stored at a location. -/
def moves (s : Scope) (d : DependenceMap) (pointer : MemoryLocation) : Bool :=
  (s.tree.find? pointer).any fun em => s.named em && !(s.accessed d em).is .readonly

/-- Whether a location of `em` is reached through a pointer that may change. -/
def unsteady (s : Scope) (d : DependenceMap) (em : EstimateId) (loc : MemoryLocation) : Bool :=
  s.locates em loc && (s.pointer? loc).any (s.moves d)

/-- Whether a memory becomes a dependence for a pointer that may change. -/
def demoted (s : Scope) (d : DependenceMap) (em : EstimateId) : Bool :=
  !toleratesMovingPointer (s.accessed d em) && s.defUse.explicit.any (s.unsteady d em)

/-- Whether a pointer is the address of a memory and lets it escape. -/
def leaks (s : Scope) (em : EstimateId) (ptr : ValueId) : Bool :=
  s.locates em ⟨ptr, some 0⟩ && s.exposes ptr em

/-- Whether the address of a memory escapes. -/
def escapes (s : Scope) (em : EstimateId) : Bool := s.defUse.addresses.any (s.leaks em)

/-- The trait of a memory once the passes are through. -/
def resolvedTrait (s : Scope) (d : DependenceMap) (em : EstimateId) : Trait :=
  ((s.accessed d em).meet (.onlyIf (s.demoted d em) .dependency)).meet
    (.onlyIf (s.escapes em) .addressOnly)

theorem locates_iff : s.locates em loc = true ↔ s.tree.find? loc = some em := beq_iff_eq

/-- A location is one of the memory found for it and of no other. -/
theorem locates_eq {e : EstimateId} (h : s.tree.find? loc = some em) :
    s.locates e loc = decide (e = em) := by
  rw [Bool.eq_iff_iff, locates_iff, h, decide_eq_true_iff]
  exact ⟨fun heq => (Option.some.inj heq).symm, fun heq => congrArg some heq.symm⟩

/-- Only memory accessed by name is demoted. -/
theorem named_of_demoted (h : s.demoted d em = true) : s.named em = true := by
  unfold demoted at h
  rw [Bool.and_eq_true, List.any_eq_true] at h
  obtain ⟨-, loc, hloc, hunsteady⟩ := h
  unfold unsteady at hunsteady
  rw [Bool.and_eq_true] at hunsteady
  exact List.any_eq_true.mpr ⟨loc, hloc, hunsteady.1⟩

/-- What an access says is met into the trait of its memory. -/
theorem accessTrait_meet_resolvedTrait (hloc : loc ∈ s.defUse.explicit)
    (h : s.tree.find? loc = some em) :
    (s.accessTrait (d.contains em) loc).meet (s.resolvedTrait d em) = s.resolvedTrait d em := by
  have haccessed : (s.accessTrait (d.contains em) loc).meet (s.accessed d em) = s.accessed d em :=
    Trait.meet_meetOver_of_mem hloc (locates_iff.mpr h)
  unfold resolvedTrait
  rw [← Trait.meet_assoc, ← Trait.meet_assoc, haccessed]

/-! ## Accesses -/

/-- Where the accesses `done` were resolved. -/
theorem noted_resolveAccess
    (h : Noted s d (fun em => done.any (s.locates em) = true)
      (fun em => .meetOver done (s.locates em) (s.accessTrait (d.contains em))) l)
    (hl : s.resolveAccess l loc = .ok l') :
    Noted s d (fun em => (done ++ [loc]).any (s.locates em) = true)
      (fun em => .meetOver (done ++ [loc]) (s.locates em) (s.accessTrait (d.contains em))) l' := by
  obtain ⟨em, hem, rfl⟩ := resolveAccess_eq_ok hl
  rw [h.dependences]
  refine h.observe _ (fun e => ?_) fun e => ?_
  · rw [List.any_append, Bool.or_eq_true, List.any_cons, List.any_nil, Bool.or_false,
      locates_eq hem, decide_eq_true_iff]
    exact Or.comm
  · rw [Trait.meetOver_concat, locates_eq hem]
    by_cases he : e = em
    · rw [if_pos he, decide_eq_true he, he]
      rfl
    · rw [if_neg he, decide_eq_false he]
      exact Trait.meet_noAccess _

theorem noted_resolveAccesses
    (hok : (s.resolveAccesses { dependences := d }).2 = .ok ()) :
    Noted s d (fun em => s.named em = true) (s.accessed d)
      (s.resolveAccesses { dependences := d }).1 := by
  have hempty : Noted s d (fun em => ([] : List MemoryLocation).any (s.locates em) = true)
      (fun em => .meetOver [] (s.locates em) (s.accessTrait (d.contains em)))
      { dependences := d } :=
    (Noted.init s d).congr (fun _ => ⟨Bool.false_ne_true, False.elim⟩) fun _ => rfl
  unfold resolveAccesses at hok ⊢
  split at hok
  next l hrun =>
    have hnames := runSteps_outcome (P := fun done l => Noted s d
      (fun em => done.any (s.locates em) = true)
      (fun em => .meetOver done (s.locates em) (s.accessTrait (d.contains em))) l)
      hempty (fun done loc l l' _ => noted_resolveAccess) (congrArg Prod.snd hrun)
    rw [hrun, List.nil_append] at hnames
    -- Unknown accesses say nothing about memory.
    refine runSteps_invariant hnames fun l inst l' h hl => ?_
    obtain ⟨node, hnode, rfl⟩ := resolveUnknown_eq_ok hl
    exact h.addUnknown hnode _
  next hfailed => exact (hfailed _ (Prod.ext rfl hok)).elim

/-! ## Pointers -/

/-- What is known about a memory once the pointers of the accesses `done` were looked at. -/
def pointed (s : Scope) (d : DependenceMap) (done : List MemoryLocation) (em : EstimateId) :
    Trait :=
  (s.accessed d em).meet
    (.onlyIf (!toleratesMovingPointer (s.accessed d em) && done.any (s.unsteady d em)) .dependency)

/-- The loop changes a pointer by what its accesses say about the memory of it, demoted or not. -/
theorem mayMove_eq {trait : EstimateId → Trait}
    (h : Noted s d (fun em => s.named em = true) trait l)
    (hread : ∀ em, (trait em).is .readonly = (s.accessed d em).is .readonly)
    (pointer : MemoryLocation) : s.mayMove l pointer = s.moves d pointer := by
  unfold mayMove moves
  cases s.tree.find? pointer with
  | none => rfl
  | some em =>
    rw [Option.bind_some, Option.any_some, ← hread, ← h.trait em]
    have hkey := h.keys em
    unfold Ledger.traitOf
    cases hid : l.explicitEntry? em with
    | none =>
      have hnamed : s.named em = false := by
        refine Bool.eq_false_iff.mpr fun hnamed => ?_
        obtain ⟨id, hsome⟩ := Ledger.mem_explicit_keys.mp (hkey.mpr hnamed)
        rw [hid] at hsome
        cases hsome
      rw [hnamed]
      rfl
    | some id =>
      rw [hkey.mp (Ledger.mem_explicit_keys.mpr ⟨id, hid⟩)]
      rfl

/-- Every memory accessed by name has an entry of its own, so its group is demoted where it is. -/
theorem demotedBy_eq (h : Noted s d (fun em => s.named em = true) (s.accessed d) l)
    (em : EstimateId) :
    (l.explicitEntry? em).any (s.demotedBy l s.defUse.explicit) = s.demoted d em := by
  cases hid : l.explicitEntry? em with
  | none =>
    -- Memory without entry is not accessed by name, and only such memory is demoted.
    refine (Bool.eq_false_iff.mpr fun hdemoted => ?_).symm
    obtain ⟨id, hsome⟩ := Ledger.mem_explicit_keys.mp ((h.keys em).mpr (named_of_demoted hdemoted))
    rw [hid] at hsome
    cases hsome
  | some id =>
    -- No two memories share an entry before the propagation, so a location that finds the entry
    -- finds the memory.
    have hendangers : s.endangers l id = s.unsteady d em := by
      funext loc
      have hlocates : decide ((s.tree.find? loc).bind l.explicitEntry? = some id)
          = s.locates em loc := by
        rw [Bool.eq_iff_iff, decide_eq_true_iff, locates_iff]
        constructor
        · intro hloc
          obtain ⟨e, he, hentry⟩ := Option.bind_eq_some_iff.mp hloc
          rw [h.fresh.explicitEntry?_eq] at hid hentry
          rw [he, h.fresh.injective hentry hid]
        · intro hloc
          rw [hloc, Option.bind_some, hid]
      unfold endangers unsteady
      rw [hlocates, funext (mayMove_eq h fun _ => rfl)]
    have hvalue : l.value id = s.accessed d em := by
      rw [← h.trait em, Ledger.traitOf, hid]
      rfl
    rw [Option.any_some, demotedBy, demoted, hvalue, hendangers]

/-! ## Addresses -/

/-- What is known about a memory once the addresses `taken` were looked at. -/
def addressed (s : Scope) (d : DependenceMap) (taken : List ValueId) (em : EstimateId) : Trait :=
  ((s.accessed d em).meet (.onlyIf (s.demoted d em) .dependency)).meet
    (.onlyIf (taken.any (s.leaks em)) .addressOnly)

theorem noted_resolveAddress {taken : List ValueId} {ptr : ValueId}
    (h : Noted s d (fun em => s.named em = true ∨ taken.any (s.leaks em) = true)
      (s.addressed d taken) l)
    (hl : s.resolveAddress l ptr = .ok l') :
    Noted s d (fun em => s.named em = true ∨ (taken ++ [ptr]).any (s.leaks em) = true)
      (s.addressed d (taken ++ [ptr])) l' := by
  obtain ⟨em, hem, rfl⟩ := resolveAddress_eq_ok hl
  have hleaks (e : EstimateId) : s.leaks e ptr = (decide (e = em) && s.exposes ptr e) := by
    unfold leaks
    rw [locates_eq hem]
  have hany (e : EstimateId) :
      (taken ++ [ptr]).any (s.leaks e) = (taken.any (s.leaks e) || s.leaks e ptr) := by
    rw [List.any_append, List.any_cons, List.any_nil, Bool.or_false]
  have haddressed (e : EstimateId) : s.addressed d (taken ++ [ptr]) e
      = (s.addressed d taken e).meet (.onlyIf (s.leaks e ptr) .addressOnly) := by
    unfold addressed
    rw [hany, Trait.onlyIf_or, ← Trait.meet_assoc]
  refine h.observeIf _ (fun e => ?_) fun e => ?_
  · rw [hany, hleaks, Bool.or_eq_true, Bool.and_eq_true, decide_eq_true_iff, or_assoc]
    refine or_congr_right (or_congr_right (and_congr_right fun he => ?_))
    rw [he]
  · rw [haddressed, hleaks]
    by_cases he : e = em
    · rw [he]
    · rw [decide_eq_false he, Bool.false_and, Bool.false_and]

/-! ## All three passes -/

/-- Where the accesses were resolved, every location has its memory. -/
theorem find?_of_resolveAccesses (hok : (s.resolveAccesses l).2 = .ok ())
    (hloc : loc ∈ s.defUse.explicit) : ∃ em, s.tree.find? loc = some em := by
  have hnames : (runSteps s.resolveAccess l s.defUse.explicit).2 = .ok () := by
    unfold resolveAccesses at hok
    split at hok
    next l' hrun => rw [hrun]
    next => exact hok
  have hall := runSteps_outcome
    (P := fun done _ => ∀ loc ∈ done, ∃ em, s.tree.find? loc = some em)
    (fun _ h => absurd h List.not_mem_nil) (fun done loc l l' _ hdone hl loc' hloc' => ?_) hnames
  · exact hall loc hloc
  · obtain ⟨em, hem, -⟩ := resolveAccess_eq_ok hl
    rcases List.mem_append.mp hloc' with hloc' | hloc'
    · exact hdone loc' hloc'
    · rw [List.mem_singleton.mp hloc']
      exact ⟨em, hem⟩

/-- What the pass over pointers leaves after the pass over accesses. -/
theorem noted_resolvePointers (haccesses : (s.resolveAccesses { dependences := d }).2 = .ok ()) :
    Noted s d (fun em => s.named em = true) (s.pointed d s.defUse.explicit)
      (s.resolvePointers (s.resolveAccesses { dependences := d }).1).1 := by
  have h := noted_resolveAccesses haccesses
  have hfound : ∀ loc ∈ s.defUse.explicit, (s.tree.find? loc).isSome = true := fun loc hloc =>
    Option.isSome_iff_exists.mpr (find?_of_resolveAccesses haccesses hloc)
  rw [resolvePointers_eq h.fresh.grouped hfound]
  refine h.demote _ fun em => ?_
  rw [demotedBy_eq h]
  rfl

/-- What the passes leave where they all succeed. -/
theorem noted_resolve (h : s.resolve { dependences := d } = .ok l) :
    Noted s d (fun em => s.named em = true ∨ s.escapes em = true) (s.resolvedTrait d) l := by
  obtain ⟨haccesses, -, haddresses, rfl⟩ := resolve_eq_ok h
  have hpointed := noted_resolvePointers haccesses
  have hmiddle : Noted s d
      (fun em => s.named em = true ∨ ([] : List ValueId).any (s.leaks em) = true)
      (s.addressed d []) (s.resolvePointers (s.resolveAccesses { dependences := d }).1).1 := by
    refine hpointed.congr (fun em => ?_) fun em => Trait.meet_noAccess _
    exact ⟨fun h => h.resolve_right Bool.false_ne_true, .inl⟩
  exact runSteps_outcome
    (P := fun taken l => Noted s d (fun em => s.named em = true ∨ taken.any (s.leaks em) = true)
      (s.addressed d taken) l)
    hmiddle (fun taken ptr l l' _ => noted_resolveAddress) haddresses

end Privatization.Scope
