import Privatization.Proofs.Classification.Locality
import Privatization.Proofs.Propagation.Congruence

/-!
# The order of the accesses

The accesses of a loop are listed in some order, and entries are made, demoted and folded as the
lists are gone through. The order makes no difference: the passes fail for one order exactly if they
fail for another (`isOk_resolve_reordered`), the ledgers they leave say the same
(`alike_of_resolve`), and so do the results, up to the order of what is listed at a node
(`classifyLoop_perm`).
-/

namespace Privatization

/-- The function with another summary of a loop. -/
def Function.summarized (f : Function) (id : LoopId) (d : DefUse) : Function :=
  { f with defUse := f.defUse.insert id d }

/-- The summary with its lists in another order. -/
structure DefUse.Reordered (d d' : DefUse) : Prop where
  explicit : d.explicit.Perm d'.explicit
  unknowns : d.unknowns.Perm d'.unknowns
  addresses : d.addresses.Perm d'.addresses
  defs : d.defs = d'.defs
  mayDefs : d.mayDefs = d'.mayDefs
  uses : d.uses = d'.uses

/-! ## Runs that may stop early -/

/-- Where it depends on the elements alone whether a step succeeds, a run succeeds exactly if every
step does. -/
theorem isOk_runSteps {σ α ε : Type} {step : σ → α → Except ε σ} {p : α → Bool}
    (h : ∀ s a, (step s a).isOk = p a) (s : σ) (as : List α) :
    (runSteps step s as).2.isOk = as.all p := by
  induction as generalizing s with
  | nil => rfl
  | cons a as ih =>
    unfold runSteps
    rw [List.all_cons, ← h s a]
    cases hstep : step s a with
    | error e => rfl
    | ok s' => exact ih s'

/-- What cannot fail leaves it to what came before it. -/
theorem isOk_bind {α β ε : Type} {x : Except ε α} {f : α → Except ε β}
    (h : ∀ a, (f a).isOk = true) : (x >>= f).isOk = x.isOk := by
  cases x with
  | error e => rfl
  | ok a => exact h a

namespace Scope

variable {s s' : Scope} {l l' : Ledger} {d : DependenceMap}

/-! ## When the passes succeed -/

/-- A fact that is required is found if it is there. -/
theorem isOk_require {α : Type} (e : ClassifyError) (o : Option α) :
    (require e o).isOk = o.isSome := by
  cases o <;> rfl

/-- Resolving an access succeeds if its location has an estimate memory. -/
theorem isOk_resolveAccess (l : Ledger) (loc : MemoryLocation) :
    (s.resolveAccess l loc).isOk = (s.tree.find? loc).isSome :=
  (isOk_bind fun _ => rfl).trans (isOk_require _ _)

/-- Resolving an unknown access succeeds if it is at a node. -/
theorem isOk_resolveUnknown (l : Ledger) (inst : InstId) :
    (s.resolveUnknown l inst).isOk = (s.tree.findUnknown? inst).isSome :=
  (isOk_bind fun _ => rfl).trans (isOk_require _ _)

/-- Resolving a pointer succeeds if the access is through none, or has an estimate memory. -/
theorem isOk_resolvePointer (l : Ledger) (loc : MemoryLocation) :
    (s.resolvePointer l loc).isOk = ((s.pointer? loc).isNone || (s.tree.find? loc).isSome) := by
  cases hem : s.tree.find? loc with
  | some em =>
    rw [resolvePointer_of_found hem]
    exact (Bool.or_true _).symm
  | none =>
    rw [resolvePointer_of_missing hem]
    cases s.pointer? loc <;> rfl

/-- Resolving an address succeeds if it has an estimate memory. -/
theorem isOk_resolveAddress (l : Ledger) (ptr : ValueId) :
    (s.resolveAddress l ptr).isOk = (s.tree.find? ⟨ptr, some 0⟩).isSome := by
  refine (isOk_bind fun em => ?_).trans (isOk_require _ _)
  dsimp only
  split <;> rfl

/-- The first pass succeeds if every location has an estimate memory and every unknown access a
node. -/
theorem isOk_resolveAccesses (s : Scope) (l : Ledger) : (s.resolveAccesses l).2.isOk
    = (s.defUse.explicit.all (fun loc => (s.tree.find? loc).isSome)
      && s.defUse.unknowns.all fun inst => (s.tree.findUnknown? inst).isSome) := by
  have hnames := isOk_runSteps (isOk_resolveAccess (s := s)) l s.defUse.explicit
  unfold resolveAccesses
  rw [← hnames]
  split
  next l' hrun =>
    rw [hrun]
    exact isOk_runSteps isOk_resolveUnknown l' s.defUse.unknowns
  next failed hfailed =>
    cases hresult : (runSteps s.resolveAccess l s.defUse.explicit).2 with
    | ok _ => exact (hfailed _ (Prod.ext rfl hresult)).elim
    | error e => rfl

/-- Whether the passes succeed is a matter of which memory is found. -/
theorem isOk_resolve (s : Scope) (l : Ledger) : (s.resolve l).isOk
    = (s.defUse.explicit.all (fun loc => (s.tree.find? loc).isSome)
      && s.defUse.unknowns.all (fun inst => (s.tree.findUnknown? inst).isSome)
      && s.defUse.addresses.all fun ptr => (s.tree.find? ⟨ptr, some 0⟩).isSome) := by
  have hpasses : (s.resolve l).isOk = ((s.resolveAccesses l).2.isOk
      && (s.resolvePointers (s.resolveAccesses l).1).2.isOk
      && (s.resolveAddresses (s.resolvePointers (s.resolveAccesses l).1).1).2.isOk) := by
    show ((s.resolveAccesses l).2 >>= fun _ => (s.resolvePointers (s.resolveAccesses l).1).2
      >>= fun _ => (s.resolveAddresses (s.resolvePointers (s.resolveAccesses l).1).1).2
        >>= fun _ => pure _).isOk = _
    cases (s.resolveAccesses l).2 with
    | error e => rfl
    | ok _ =>
      cases (s.resolvePointers (s.resolveAccesses l).1).2 with
      | error e => rfl
      | ok _ =>
        cases (s.resolveAddresses (s.resolvePointers (s.resolveAccesses l).1).1).2 <;> rfl
  have hpointers : (s.resolvePointers (s.resolveAccesses l).1).2.isOk
      = s.defUse.explicit.all fun loc => (s.pointer? loc).isNone || (s.tree.find? loc).isSome :=
    isOk_runSteps isOk_resolvePointer _ _
  have haddresses : (s.resolveAddresses (s.resolvePointers (s.resolveAccesses l).1).1).2.isOk
      = s.defUse.addresses.all fun ptr => (s.tree.find? ⟨ptr, some 0⟩).isSome :=
    isOk_runSteps isOk_resolveAddress _ _
  rw [hpasses, isOk_resolveAccesses, hpointers, haddresses]
  cases hfound : s.defUse.explicit.all fun loc => (s.tree.find? loc).isSome with
  | false => rfl
  | true =>
    -- The pass over pointers looks up nothing that the pass before it has not found.
    have hall : (s.defUse.explicit.all fun loc =>
        (s.pointer? loc).isNone || (s.tree.find? loc).isSome) = true := by
      rw [List.all_eq_true] at hfound ⊢
      intro loc hloc
      rw [hfound loc hloc, Bool.or_true]
    rw [hall, Bool.true_and, Bool.and_true]

/-! ## What the passes leave -/

/-- The scope with another summary of its loop. -/
def summarized (s : Scope) (d : DefUse) : Scope :=
  { s with function := s.function.summarized s.loop.id d, defUse := d }

section Reordered

variable {d' : DefUse} (h : s.defUse.Reordered d')

include h

/-- For another order of the lists the passes succeed if they do for this one. -/
theorem isOk_resolve_reordered (l : Ledger) :
    ((s.summarized d').resolve l).isOk = (s.resolve l).isOk := by
  rw [isOk_resolve, isOk_resolve, h.explicit.all_eq, h.unknowns.all_eq, h.addresses.all_eq]
  rfl

/-- The same memory is accessed by name. -/
theorem named_reordered : (s.summarized d').named = s.named := by
  funext em
  exact h.explicit.symm.any_eq

/-- The addresses of the same memory escape. -/
theorem escapes_reordered : (s.summarized d').escapes = s.escapes := by
  funext em
  exact h.addresses.symm.any_eq

/-- The accesses by name say the same of every memory. -/
theorem accessed_reordered : (s.summarized d').accessed = s.accessed := by
  have htrait : (s.summarized d').accessTrait = s.accessTrait := by
    funext carried loc
    unfold accessTrait DefUse.hasUse DefUse.hasDef DefUse.hasMayDef
    rw [h.defs, h.mayDefs, h.uses]
    rfl
  funext d em
  unfold accessed
  rw [htrait]
  exact Trait.meetOver_perm h.explicit.symm _ _

/-- The passes find the same trait for every memory, whatever the order. -/
theorem resolvedTrait_reordered : (s.summarized d').resolvedTrait = s.resolvedTrait := by
  have hmoves : (s.summarized d').moves = s.moves := by
    funext d pointer
    unfold moves
    rw [named_reordered h, accessed_reordered h]
    rfl
  have hunsteady : (s.summarized d').unsteady = s.unsteady := by
    funext d em loc
    unfold unsteady
    rw [hmoves]
    rfl
  funext d em
  unfold resolvedTrait demoted
  rw [accessed_reordered h, escapes_reordered h, hunsteady, h.explicit.any_eq]
  rfl

/-- Where they succeed, the passes leave ledgers that say the same. -/
theorem alike_of_resolve (hl : s.resolve { dependences := d } = .ok l)
    (hl' : (s.summarized d').resolve { dependences := d } = .ok l') : l.Alike l' := by
  have noted := noted_resolve hl
  have noted' := noted_resolve hl'
  constructor
  case keys =>
    refine (List.perm_ext_iff_of_nodup (OrderedMap.nodup_keys _) (OrderedMap.nodup_keys _)).mpr ?_
    intro em
    rw [noted.keys, noted'.keys, named_reordered h, escapes_reordered h]
  case traits =>
    funext em
    rw [noted.trait, noted'.trait, resolvedTrait_reordered h]
  case unknowns =>
    rw [unknowns_resolve hl, unknowns_resolve hl']
    exact h.unknowns.filterMap _
  case dependences => exact noted.dependences.trans noted'.dependences.symm

/-- The results are the same up to the order inside a node. -/
theorem finish_reordered (w : s.tree.WellFormed) (hl : s.resolve { dependences := d } = .ok l)
    (hl' : (s.summarized d').resolve { dependences := d } = .ok l') (settings : Settings) :
    (s.finish l settings).SameUpToOrder ((s.summarized d').finish l' settings) := by
  have noted' := noted_resolve hl'
  have hnoted' : Noted s d _ _ l' :=
    ⟨noted'.fresh, noted'.dependences, noted'.keys, noted'.trait, noted'.unknowns⟩
  -- What comes after the passes does not look at the summary any more.
  have htree : (s.summarized d').tree = s.tree := rfl
  rw [finish_congr htree rfl rfl]
  exact finish_sameUpToOrder (alike_of_resolve h hl hl') w (noted_resolve hl) hnoted'
    (queued_resolve hl) (queued_resolve hl') settings

end Reordered

end Scope

/-! ## The classification -/

/-- The scope of a loop differs in the summary alone. -/
theorem Scope.ofLoop_summarized {f : Function} {t : AliasTree} {loop : Loop} {d : DefUse}
    (hd : f.defUse.get? loop.id = some d) (d' : DefUse) :
    Scope.ofLoop (f.summarized loop.id d') t loop
      = (Scope.ofLoop f t loop).map (·.summarized d') := by
  have hd' : (f.summarized loop.id d').defUse.get? loop.id = some d' :=
    OrderedMap.get?_insert_self f.defUse loop.id d'
  unfold Scope.ofLoop
  rw [hd, hd', show (f.summarized loop.id d').live = f.live from rfl,
    show (f.summarized loop.id d').reach = f.reach from rfl]
  cases f.live.get? loop.id with
  | none => rfl
  | some live =>
    cases f.reach.get? loop.latch with
    | none => rfl
    | some latch => cases f.reach.get? loop.exit <;> rfl

variable {settings : Settings} {f : Function} {t : AliasTree} {loop : Loop}
  {depends : DependenceOracle} {modRef : ModRefOracle}

/-- The order in which the accesses of a loop are listed makes no difference. The loop is classified
for one order exactly if it is for another, and then the results are the same up to the order of
what is listed at a node. -/
theorem classifyLoop_perm (grown : t.Grown) {d d' : DefUse}
    (hd : f.defUse.get? loop.id = some d) (h : d.Reordered d') :
    (classifyLoop settings f t loop depends modRef).isOk
        = (classifyLoop settings (f.summarized loop.id d') t loop depends modRef).isOk
      ∧ ∀ first second, classifyLoop settings f t loop depends modRef = .ok first →
        classifyLoop settings (f.summarized loop.id d') t loop depends modRef = .ok second →
          first.SameUpToOrder second := by
  have hscope := Scope.ofLoop_summarized (t := t) hd d'
  have hsummary {s : Scope} (hs : Scope.ofLoop f t loop = .ok s) : s.defUse.Reordered d' := by
    obtain ⟨-, -, -, hdefUse, -⟩ := Scope.ofLoop_eq_ok hs
    exact Option.some.inj (hd.symm.trans hdefUse) ▸ h
  -- The dependences are collected from the body, in program order.
  have hcollect (s : Scope) :
      ((s.summarized d').dependenceSource settings depends modRef).collect
        = (s.dependenceSource settings depends modRef).collect :=
    DependenceSource.collect_congr
      ⟨rfl, rfl, rfl, rfl, rfl, rfl, fun _ _ _ _ => rfl, fun _ _ _ => rfl⟩
  constructor
  · unfold classifyLoop
    rw [hscope]
    cases hs : Scope.ofLoop f t loop with
    | error e => rfl
    | ok s =>
      show ((s.dependenceSource settings depends modRef).collect >>= _).isOk
        = (((s.summarized d').dependenceSource settings depends modRef).collect >>= _).isOk
      rw [hcollect]
      cases (s.dependenceSource settings depends modRef).collect with
      | error e => rfl
      | ok m =>
        show (s.resolve { dependences := m } >>= _).isOk
          = ((s.summarized d').resolve { dependences := m } >>= _).isOk
        rw [isOk_bind fun _ => rfl, isOk_bind fun _ => rfl,
          Scope.isOk_resolve_reordered (hsummary hs)]
  · intro first second hfirst hsecond
    obtain ⟨s, m, l, st, rfl⟩ := classifyLoop_eq_ok.mp hfirst
    obtain ⟨s', m', l', st', rfl⟩ := classifyLoop_eq_ok.mp hsecond
    obtain rfl : s.summarized d' = s' := by
      have hs' := st'.scope
      rw [hscope, st.scope] at hs'
      exact Except.ok.inj hs'
    obtain rfl : m = m' := by
      have hm' := st'.dependences
      rw [hcollect, st.dependences] at hm'
      exact Except.ok.inj hm'
    obtain ⟨-, rfl, -, -, -⟩ := Scope.ofLoop_eq_ok st.scope
    exact Scope.finish_reordered (hsummary st.scope) grown.wellFormed st.ledger st'.ledger settings

/-- Whichever half is written first, the object is reported. -/
theorem classifyLoop_perm_halves :
    ∃ d d' first second, halvesTree.Grown ∧ (halvesFunction ∅ ∅).defUse.get? twoBlocks.id = some d
      ∧ d.Reordered d' ∧ d'.explicit ≠ d.explicit
      ∧ classifyLoop {} (halvesFunction ∅ ∅) halvesTree twoBlocks (halvesFunction ∅ ∅).depends
        (halvesFunction ∅ ∅).modRef = .ok first
      ∧ classifyLoop {} ((halvesFunction ∅ ∅).summarized twoBlocks.id d') halvesTree twoBlocks
        (halvesFunction ∅ ∅).depends (halvesFunction ∅ ∅).modRef = .ok second
      ∧ first.SameUpToOrder second := by
  let d : DefUse := { explicit := halves, defs := .ofList halves }
  have hd : (halvesFunction ∅ ∅).defUse.get? twoBlocks.id = some d := rfl
  have hreordered : d.Reordered { d with explicit := halves.reverse } :=
    ⟨(List.reverse_perm halves).symm, .rfl, .rfl, rfl, rfl, rfl⟩
  have grown : halvesTree.Grown := AliasTree.grown_ofAdditions _
  obtain ⟨hisOk, hsame⟩ := @classifyLoop_perm {} (halvesFunction ∅ ∅) halvesTree twoBlocks
    (halvesFunction ∅ ∅).depends (halvesFunction ∅ ∅).modRef grown d _ hd hreordered
  have hok : (classifyLoop {} (halvesFunction ∅ ∅) halvesTree twoBlocks
    (halvesFunction ∅ ∅).depends (halvesFunction ∅ ∅).modRef).isOk = true := by decide +kernel
  obtain ⟨first, hfirst⟩ := exists_of_isOk hok
  obtain ⟨second, hsecond⟩ := exists_of_isOk (hisOk.symm.trans hok)
  exact ⟨d, _, first, second, grown, hd, hreordered, by decide, hfirst, hsecond,
    hsame first second hfirst hsecond⟩

end Privatization
