import Privatization.Proofs.Guarded.Arena
import Privatization.Proofs.Resolution.Passes

/-!
# Guarded resolution of accesses

The passes over the def-use summary, on an arena. Where the facts of the loop name values and
instructions of the function, and every memory begins with a value of it, each step on an arena that
backs a ledger mirrors the step on the ledger, and so do the passes.
-/

namespace Privatization.Guarded

section Steps

variable (s : Scope)

/-- Observes one explicit access. -/
def resolveAccess (a : Arena) (loc : MemoryLocation) : Guarded Arena := do
  let em ← locate s.tree s.loop.id loc
  let (a, id) ← a.trackExplicit s.tree em
  a.narrow id (s.accessTrait (a.dependences.contains em) loc)

/-- Records one instruction of unknown effect at its node. -/
def resolveUnknown (a : Arena) (inst : InstId) : Guarded Arena := do
  let n ← report (Scope.require (.missingUnknown s.loop.id inst) (s.tree.findUnknown? inst))
  let i ← instruction s.function inst
  return a.addUnknown inst n (if i.isReadOnlyEffect then Trait.readonly else Trait.dependency)

/-- Whether the pointer read from `loc` may change between iterations. -/
def mayMove (a : Arena) (loc : MemoryLocation) : Guarded Bool := do
  match ← find? s.tree loc with
  | none => return false
  | some em =>
    match ← a.explicitEntry? em with
    | none => return false
    | some id => return !(← a.entry id).value.is .readonly

/-- Demotes the memory of an access whose pointer is itself read from memory that may move. -/
def resolvePointer (a : Arena) (loc : MemoryLocation) : Guarded Arena := do
  match (← value s.function loc.ptr).loadedFrom? with
  | none => return a
  | some pointer =>
    let em ← locate s.tree s.loop.id loc
    match ← a.explicitEntry? em with
    | none => return a
    | some id =>
      if Scope.toleratesMovingPointer (← a.entry id).value then return a
      else if ← mayMove s a pointer then a.narrow id Trait.dependency
      else return a

/-- Observes the escape of one address. -/
def resolveAddress (a : Arena) (ptr : ValueId) : Guarded Arena := do
  let em ← locate s.tree s.loop.id ⟨ptr, some 0⟩
  let object ← value s.function (← front s.tree (← outermost s.tree em))
  if s.outlivesIteration object && s.letsEscape ptr then
    let (a, id) ← a.trackExplicit s.tree em
    a.narrow id Trait.addressOnly
  else return a

/-- The passes over the def-use summary. -/
def resolvePasses (a : Arena) : Guarded Arena := do
  let a ← s.defUse.explicit.foldlM (resolveAccess s) a
  let a ← s.defUse.unknowns.foldlM (resolveUnknown s) a
  let a ← s.defUse.explicit.foldlM (resolvePointer s) a
  s.defUse.addresses.foldlM (resolveAddress s) a

end Steps

/-- The numbers that the facts of a loop hold are in range. -/
structure InRange (s : Scope) : Prop where
  wellFormed : s.tree.WellFormed
  fronts : ∀ m ∈ s.tree.estimates, m.front.index < s.function.values.size
  explicit : ∀ loc ∈ s.defUse.explicit, loc.ptr.index < s.function.values.size
  unknowns : ∀ inst ∈ s.defUse.unknowns, inst.index < s.function.instructions.size

/-! ## Values and instructions -/

/-- A value whose number is in range is found. -/
theorem value_eq {f : Function} {v : ValueId} (h : v.index < f.values.size) :
    ∃ x, f.value? v = some x ∧ value f v = .ok x :=
  exists_found h

/-- An instruction whose number is in range is found. -/
theorem instruction_eq {f : Function} {i : InstId} (h : i.index < f.instructions.size) :
    ∃ x, f.instruction? i = some x ∧ instruction f i = .ok x :=
  exists_found h

/-- Every memory begins with a value of the function. -/
theorem InRange.front_value {s : Scope} (r : InRange s) {e : EstimateId}
    (h : e.index < s.tree.estimates.size) :
    ∃ m x, s.tree.estimate? e = some m ∧ front s.tree e = .ok m.front
      ∧ s.function.value? m.front = some x ∧ value s.function m.front = .ok x := by
  obtain ⟨m, hm, hfront⟩ := front_eq h
  obtain ⟨x, hx, hvalue⟩ := value_eq (r.fronts m (Array.mem_of_getElem? hm))
  exact ⟨m, x, hm, hfront, hx, hvalue⟩

/-! ## Steps -/

/-- An arena stands for a ledger. -/
def Behind (s : Scope) (a : Arena) (l : Ledger) : Prop := ∃ x, Backs s x a l

section Mirrors

variable {s : Scope} {a : Arena} {l : Ledger}

/-- An observation about a memory, whether or not it has an entry. -/
theorem Behind.observe (h : Behind s a l) {em : EstimateId}
    (hem : em.index < s.tree.estimates.size) (v : Arena → Trait) (v' : Ledger → Trait)
    (hv : ∀ a l, Behind s a l → v a = v' l) :
    Mirrors (Behind s) (a.trackExplicit s.tree em >>= fun p => p.1.narrow p.2 (v p.1))
      (.ok ((l.trackExplicit s.tree em).1.narrow (l.trackExplicit s.tree em).2
        (v' (l.trackExplicit s.tree em).1))) := by
  obtain ⟨x, b⟩ := h
  refine (b.trackExplicit hem).next ?_
  rintro ⟨a', id⟩ ⟨hid, x', hlt, b'⟩
  rw [show id = (l.trackExplicit s.tree em).2 from hid] at hlt ⊢
  rw [show v a' = _ from hv _ _ ⟨x', b'⟩]
  exact (b'.narrow hlt _).mono fun _ _ h => ⟨x', h⟩

/-- The observation of an access mirrors that on the ledger. -/
theorem resolveAccess_mirrors (h : Behind s a l) (loc : MemoryLocation) :
    Mirrors (Behind s) (resolveAccess s a loc) (s.resolveAccess l loc) := by
  refine (locate_mirrors ..).bind ?_
  rintro em _ ⟨rfl, hem⟩
  refine h.observe hem (fun a => s.accessTrait (a.dependences.contains em) loc)
    (fun l => s.accessTrait (l.dependences.contains em) loc) ?_
  rintro a l ⟨x, b⟩
  rw [b.dependences_eq]

/-- Recording an instruction of unknown effect mirrors the engine, since it is an instruction of the
function. -/
theorem resolveUnknown_mirrors (r : InRange s) (h : Behind s a l) {inst : InstId}
    (hinst : inst ∈ s.defUse.unknowns) :
    Mirrors (Behind s) (resolveUnknown s a inst) (s.resolveUnknown l inst) := by
  have hlt := r.unknowns inst hinst
  obtain ⟨x, b⟩ := h
  refine (Mirrors.report _).bind ?_
  rintro n _ rfl
  obtain ⟨i, hi, hok⟩ := instruction_eq hlt
  rw [hok, ok_bind, Scope.unknownTrait, hi]
  exact .ok (b.addUnknown hlt n _)

/-- Whether a pointer may move is asked of the same entry, and never fails. -/
theorem mayMove_eq (h : Behind s a l) (loc : MemoryLocation) :
    mayMove s a loc = .ok (s.mayMove l loc) := by
  obtain ⟨x, b⟩ := h
  rw [mayMove, find?_eq, ok_bind, Scope.mayMove]
  cases s.tree.find? loc with
  | none => rfl
  | some em =>
    show (a.explicitEntry? em >>= _) = _
    rw [b.explicitEntry?, ok_bind, Option.bind_some]
    cases hid : l.explicitEntry? em with
    | none => rfl
    | some id =>
      obtain ⟨c, hc, hvalue, -⟩ := b.entry (b.explicitEntry?_lt hid)
      show (a.entry id >>= _) = _
      rw [hc, ok_bind, Option.any_some, hvalue]
      rfl

/-- The demotion through a moving pointer mirrors that on the ledger. -/
theorem resolvePointer_mirrors (r : InRange s) (h : Behind s a l) {loc : MemoryLocation}
    (hloc : loc ∈ s.defUse.explicit) :
    Mirrors (Behind s) (resolvePointer s a loc) (s.resolvePointer l loc) := by
  obtain ⟨x, hx, hok⟩ := value_eq (r.explicit loc hloc)
  rw [resolvePointer, hok, ok_bind, Scope.resolvePointer, hx, Option.bind_some]
  cases x.loadedFrom? with
  | none => exact .ok h
  | some pointer =>
    refine (locate_mirrors ..).bind ?_
    rintro em _ ⟨rfl, hem⟩
    -- The engine asks whether the pointer moves only after the first test; asking costs nothing.
    have hmove := mayMove_eq h pointer
    obtain ⟨x, b⟩ := h
    rw [b.explicitEntry?, ok_bind]
    cases hid : l.explicitEntry? em with
    | none => exact .ok ⟨x, b⟩
    | some id =>
      obtain ⟨c, hc, hvalue, -⟩ := b.entry (b.explicitEntry?_lt hid)
      dsimp only
      rw [hc, ok_bind, hvalue, hmove]
      cases Scope.toleratesMovingPointer c.value with
      | true => exact .ok ⟨x, b⟩
      | false =>
        cases s.mayMove l pointer with
        | true => exact (b.narrow (b.explicitEntry?_lt hid) _).mono fun _ _ h => ⟨x, h⟩
        | false => exact .ok ⟨x, b⟩

/-- The observation of an escape mirrors that on the ledger: the object that the address lies in
begins with a value of the function. -/
theorem resolveAddress_mirrors (r : InRange s) (h : Behind s a l) (ptr : ValueId) :
    Mirrors (Behind s) (resolveAddress s a ptr) (s.resolveAddress l ptr) := by
  refine (locate_mirrors ..).bind ?_
  rintro em _ ⟨rfl, hem⟩
  obtain ⟨m, x, hm, hfront, hx, hvalue⟩ := r.front_value (AliasTree.outermost_lt hem)
  rw [outermost_eq hem, ok_bind, hfront, ok_bind, hvalue, ok_bind, hm, Option.bind_some, hx]
  show Mirrors _ _ (if s.outlivesIteration x && s.letsEscape ptr then _ else _)
  cases s.outlivesIteration x && s.letsEscape ptr with
  | true =>
    refine h.observe hem (fun _ => Trait.addressOnly) (fun _ => Trait.addressOnly) ?_
    exact fun _ _ _ => rfl
  | false => exact .ok h

/-! ## The passes -/

/-- A pass is a fold of its steps. -/
theorem foldlM_eq_runSteps {σ α ε : Type} (step : σ → α → Except ε σ) (s : σ) (as : List α) :
    as.foldlM step s = (runSteps step s as).2.map fun _ => (runSteps step s as).1 := by
  induction as generalizing s with
  | nil => rfl
  | cons a as ih =>
    rw [List.foldlM_cons, runSteps]
    cases step s a with
    | error e => rfl
    | ok s' => exact ih s'

/-- The passes are four folds, one after another. -/
theorem resolve_eq_folds (s : Scope) (l : Ledger) : s.resolve l = (do
    let l ← s.defUse.explicit.foldlM s.resolveAccess l
    let l ← s.defUse.unknowns.foldlM s.resolveUnknown l
    let l ← s.defUse.explicit.foldlM s.resolvePointer l
    s.defUse.addresses.foldlM s.resolveAddress l) := by
  -- A run of steps also keeps the ledger it stopped at, so the passes are taken apart one by one.
  rw [foldlM_eq_runSteps s.resolveAccess, Scope.resolve, Scope.resolveAccesses]
  obtain ⟨l₁, accesses⟩ := runSteps s.resolveAccess l s.defUse.explicit
  cases accesses with
  | error e => rfl
  | ok _ =>
    show _ = s.defUse.unknowns.foldlM s.resolveUnknown l₁ >>= _
    rw [foldlM_eq_runSteps s.resolveUnknown]
    dsimp only
    obtain ⟨l₂, unknowns⟩ := runSteps s.resolveUnknown l₁ s.defUse.unknowns
    cases unknowns with
    | error e => rfl
    | ok _ =>
      show _ = s.defUse.explicit.foldlM s.resolvePointer l₂ >>= _
      rw [foldlM_eq_runSteps s.resolvePointer]
      dsimp only [Scope.resolvePointers]
      obtain ⟨l₃, pointers⟩ := runSteps s.resolvePointer l₂ s.defUse.explicit
      cases pointers with
      | error e => rfl
      | ok _ =>
        show _ = s.defUse.addresses.foldlM s.resolveAddress l₃
        rw [foldlM_eq_runSteps s.resolveAddress]
        dsimp only [Scope.resolveAddresses]
        obtain ⟨l₄, addresses⟩ := runSteps s.resolveAddress l₃ s.defUse.addresses
        cases addresses <;> rfl

/-- The passes on an arena mirror the passes on the ledger, failures included. -/
theorem resolvePasses_mirrors (r : InRange s) (h : Behind s a l) :
    Mirrors (Behind s) (resolvePasses s a) (s.resolve l) := by
  rw [resolve_eq_folds, resolvePasses]
  refine Mirrors.bind (.foldlM (fun loc _ a l h => resolveAccess_mirrors h loc) h) fun a l h => ?_
  refine Mirrors.bind (.foldlM ?_ h) fun a l h => ?_
  · exact fun inst hinst a l h => resolveUnknown_mirrors r h hinst
  refine Mirrors.bind (.foldlM ?_ h) fun a l h => ?_
  · exact fun loc hloc a l h => resolvePointer_mirrors r h hloc
  exact .foldlM (fun ptr _ a l h => resolveAddress_mirrors r h ptr) h

end Mirrors

end Privatization.Guarded
