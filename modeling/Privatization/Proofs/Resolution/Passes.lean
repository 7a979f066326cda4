import Privatization.Classification.Classify
import Privatization.Proofs.Alias.Growth
import Privatization.Proofs.Ledger.Fresh

/-!
# The passes over the def-use summary

A pass goes through a list and stops at the first error. Its steps do little to the ledger: each
observes something about one memory, notes one unknown access or does nothing (`resolveAccess_eq_ok`
and its companions). So whatever the passes see, and wherever they stop, they leave a fresh ledger
with unknown accesses at their nodes (`noted_resolved`).
-/

namespace Privatization

section Steps

variable {σ α ε : Type} {step : σ → α → Except ε σ} {s : σ} {as : List α}

/-- A run of steps keeps what every step keeps, also where it stops at an error. -/
theorem runSteps_invariant {P : σ → Prop} (h : P s)
    (hstep : ∀ s a s', P s → step s a = .ok s' → P s') : P (runSteps step s as).1 := by
  induction as generalizing s with
  | nil => exact h
  | cons a as ih =>
    unfold runSteps
    cases hs : step s a with
    | error e => exact h
    | ok s' => exact ih (hstep s a s' h hs)

/-- What a run that reaches the end leaves, by what each step adds to what was left so far. -/
theorem runSteps_outcome {P : List α → σ → Prop} {done : List α} (h : P done s)
    (hstep : ∀ done a s s', a ∈ as → P done s → step s a = .ok s' → P (done ++ [a]) s')
    (hok : (runSteps step s as).2 = .ok ()) : P (done ++ as) (runSteps step s as).1 := by
  induction as generalizing s done with
  | nil =>
    rw [List.append_nil]
    exact h
  | cons a as ih =>
    unfold runSteps at hok ⊢
    cases hs : step s a with
    | error e =>
      rw [hs] at hok
      cases hok
    | ok s' =>
      rw [hs] at hok
      rw [List.append_cons]
      exact ih (hstep done a s s' List.mem_cons_self h hs)
        (fun done b t t' hb => hstep done b t t' (List.mem_cons_of_mem a hb)) hok

end Steps

namespace Scope

variable {s : Scope} {l l' : Ledger} {d : DependenceMap} {em : EstimateId} {loc : MemoryLocation}
  {ptr : ValueId} {inst : InstId}

/-! ## What a successful step did -/

theorem require_eq_ok {α : Type} {e : ClassifyError} {o : Option α} {a : α} :
    require e o = .ok a ↔ o = some a := by
  cases o with
  | none => exact ⟨fun h => (by cases h), fun h => (by cases h)⟩
  | some b =>
    exact ⟨fun h => congrArg some (Except.ok.inj h), fun h => congrArg _ (Option.some.inj h)⟩

theorem resolveAccess_eq_ok (h : s.resolveAccess l loc = .ok l') :
    ∃ em, s.tree.find? loc = some em
      ∧ l' = l.observe s.tree em (s.accessTrait (l.dependences.contains em) loc) := by
  unfold resolveAccess at h
  cases hem : s.estimate loc with
  | error e =>
    rw [hem] at h
    cases h
  | ok em =>
    rw [hem] at h
    have hdependences : (l.trackExplicit s.tree em).1.dependences = l.dependences := by
      unfold Ledger.trackExplicit
      split <;> rfl
    refine ⟨em, require_eq_ok.mp hem, ?_⟩
    rw [← hdependences]
    exact (Except.ok.inj h).symm

theorem resolveUnknown_eq_ok (h : s.resolveUnknown l inst = .ok l') :
    ∃ node, s.tree.findUnknown? inst = some node
      ∧ l' = (l.addUnknown inst node (s.unknownTrait inst)).1 := by
  unfold resolveUnknown at h
  cases hnode : require (.missingUnknown s.loop.id inst) (s.tree.findUnknown? inst) with
  | error e =>
    rw [hnode] at h
    cases h
  | ok node =>
    rw [hnode] at h
    exact ⟨node, require_eq_ok.mp hnode, (Except.ok.inj h).symm⟩

/-- The location the pointer of an access is loaded from, if it is loaded. -/
def pointer? (s : Scope) (loc : MemoryLocation) : Option MemoryLocation :=
  (s.function.value? loc.ptr).bind Value.loadedFrom?

/-- Whether the access to `loc`, of memory `em`, makes that memory a dependence: its pointer may
change, and what is known about the memory does not tolerate that. -/
def demotes (s : Scope) (l : Ledger) (loc : MemoryLocation) (em : EstimateId) : Bool :=
  decide (em ∈ l.explicit.keys) && !toleratesMovingPointer (l.traitOf em)
    && (s.pointer? loc).any (s.mayMove l)

/-- Memory without an entry is never demoted. -/
theorem demotes_of_none {em : EstimateId} (h : l.explicitEntry? em = none) :
    s.demotes l loc em = false := by
  have hkey : em ∉ l.explicit.keys := by
    intro hkey
    obtain ⟨id, hid⟩ := Ledger.mem_explicit_keys.mp hkey
    rw [h] at hid
    cases hid
  unfold demotes
  rw [decide_eq_false hkey, Bool.false_and, Bool.false_and]

theorem demotes_of_some {em : EstimateId} {id : EntryId} (h : l.explicitEntry? em = some id) :
    s.demotes l loc em
      = (!toleratesMovingPointer (l.value id) && (s.pointer? loc).any (s.mayMove l)) := by
  unfold demotes Ledger.traitOf
  rw [h, decide_eq_true (Ledger.mem_explicit_keys.mpr ⟨id, h⟩)]
  rfl

/-- The step for an access whose memory is found. -/
theorem resolvePointer_of_found (h : s.tree.find? loc = some em) : s.resolvePointer l loc
    = .ok (if s.demotes l loc em then l.observe s.tree em .dependency else l) := by
  have hem : s.estimate loc = .ok em := require_eq_ok.mpr h
  have hpointer : (s.function.value? loc.ptr).bind Value.loadedFrom? = s.pointer? loc := rfl
  unfold resolvePointer
  rw [hpointer]
  cases hid : l.explicitEntry? em with
  | none =>
    rw [demotes_of_none hid]
    cases s.pointer? loc with
    | none => rfl
    | some pointer =>
      simp only [hem, hid, Bind.bind, Except.bind]
      rfl
  | some id =>
    rw [demotes_of_some hid, Ledger.observe_of_some hid]
    cases s.pointer? loc with
    | none =>
      rw [Option.any_none, Bool.and_false]
      rfl
    | some pointer =>
      simp only [hem, hid, Option.any_some, Bind.bind, Except.bind]
      split <;> rfl

/-- Without memory, an access fails only if its pointer is loaded. -/
theorem resolvePointer_of_missing (h : s.tree.find? loc = none) : s.resolvePointer l loc
    = if (s.pointer? loc).isSome then .error (.missingEstimate s.loop.id loc) else .ok l := by
  have hem : s.estimate loc = .error (.missingEstimate s.loop.id loc) := by
    unfold estimate
    rw [h]
    rfl
  have hpointer : (s.function.value? loc.ptr).bind Value.loadedFrom? = s.pointer? loc := rfl
  unfold resolvePointer
  rw [hpointer, hem]
  cases s.pointer? loc <;> rfl

theorem resolvePointer_eq_ok (h : s.resolvePointer l loc = .ok l') :
    (s.pointer? loc = none ∧ l' = l)
      ∨ ∃ em, s.tree.find? loc = some em
        ∧ l' = if s.demotes l loc em then l.observe s.tree em .dependency else l := by
  cases hem : s.tree.find? loc with
  | some em =>
    rw [resolvePointer_of_found hem] at h
    exact .inr ⟨em, rfl, (Except.ok.inj h).symm⟩
  | none =>
    rw [resolvePointer_of_missing hem] at h
    split at h
    next => cases h
    next hpointer =>
      exact .inl ⟨Option.not_isSome_iff_eq_none.mp hpointer, (Except.ok.inj h).symm⟩

/-- Whether the address of `em`, taken as `ptr`, escapes from an object that outlives the
iteration. -/
def exposes (s : Scope) (ptr : ValueId) (em : EstimateId) : Bool :=
  ((s.tree.estimate? (s.tree.outermost em)).bind fun e => s.function.value? e.front).any
    s.outlivesIteration && s.letsEscape ptr

theorem resolveAddress_eq_ok (h : s.resolveAddress l ptr = .ok l') :
    ∃ em, s.tree.find? ⟨ptr, some 0⟩ = some em
      ∧ l' = if s.exposes ptr em then l.observe s.tree em .addressOnly else l := by
  unfold resolveAddress at h
  cases hem : s.estimate ⟨ptr, some 0⟩ with
  | error e =>
    rw [hem] at h
    cases h
  | ok em =>
    rw [hem] at h
    change (if s.exposes ptr em then _ else _) = _ at h
    refine ⟨em, require_eq_ok.mp hem, ?_⟩
    split at h
    next hx =>
      rw [if_pos hx]
      exact (Except.ok.inj h).symm
    next hx =>
      rw [if_neg hx]
      exact (Except.ok.inj h).symm

/-! ## What a ledger has noted -/

/-- Before the propagation, the ledger has noted the observations `trait` about the memory `named`,
and unknown accesses at their nodes. -/
structure Noted (s : Scope) (d : DependenceMap) (named : EstimateId → Prop)
    (trait : EstimateId → Trait) (l : Ledger) : Prop where
  fresh : l.Fresh s.tree
  dependences : l.dependences = d
  keys : ∀ em, em ∈ l.explicit.keys ↔ named em
  trait : ∀ em, l.traitOf em = trait em
  unknowns : ∀ x ∈ l.unknowns, s.tree.findUnknown? x.inst = some x.node

variable {named named' : EstimateId → Prop} {trait trait' : EstimateId → Trait}

theorem Noted.init (s : Scope) (d : DependenceMap) :
    Noted s d (fun _ => False) (fun _ => .noAccess) { dependences := d } where
  fresh := .init d
  dependences := rfl
  keys em := ⟨fun h => (by cases h), False.elim⟩
  trait _ := rfl
  unknowns x hx := by simp at hx

/-- An observation is noted about its memory alone. -/
theorem Noted.observe (h : Noted s d named trait l) (v : Trait)
    (hnamed : ∀ e, named' e ↔ e = em ∨ named e)
    (htrait : ∀ e, trait' e = if e = em then (trait e).meet v else trait e) :
    Noted s d named' trait' (l.observe s.tree em v) := by
  obtain ⟨hfresh, htraits, hkeys, hdependences, hunknowns⟩ := h.fresh.observe em v
  refine ⟨hfresh, hdependences.trans h.dependences, fun e => ?_, fun e => ?_, fun x hx => ?_⟩
  · rw [hkeys, h.keys, hnamed]
  · rw [htraits, h.trait, htrait]
  · rw [hunknowns] at hx
    exact h.unknowns x hx

theorem Noted.addUnknown (h : Noted s d named trait l) {node : AliasNodeId}
    (hnode : s.tree.findUnknown? inst = some node) (v : Trait) :
    Noted s d named trait (l.addUnknown inst node v).1 where
  fresh := h.fresh.addUnknown inst node v
  dependences := h.dependences
  keys := h.keys
  trait := h.trait
  unknowns x hx := by
    rcases Array.mem_push.mp hx with hx | rfl
    · exact h.unknowns x hx
    · exact hnode

theorem Noted.congr (h : Noted s d named trait l) (hnamed : ∀ em, named' em ↔ named em)
    (htrait : ∀ em, trait' em = trait em) : Noted s d named' trait' l where
  fresh := h.fresh
  dependences := h.dependences
  keys em := (h.keys em).trans (hnamed em).symm
  trait em := (h.trait em).trans (htrait em).symm
  unknowns := h.unknowns

/-- An observation is noted about its memory alone, and only where it is made. -/
theorem Noted.observeIf (h : Noted s d named trait l) {b : Bool} (v : Trait)
    (hnamed : ∀ e, named' e ↔ named e ∨ (e = em ∧ b = true))
    (htrait : ∀ e, trait' e = (trait e).meet (.onlyIf (decide (e = em) && b) v)) :
    Noted s d named' trait' (if b then l.observe s.tree em v else l) := by
  cases b with
  | true =>
    refine h.observe v (fun e => ?_) fun e => ?_
    · rw [hnamed, eq_self_iff_true, and_true]
      exact Or.comm
    · rw [htrait, Bool.and_true]
      by_cases he : e = em
      · rw [if_pos he, decide_eq_true he]
        rfl
      · rw [if_neg he, decide_eq_false he]
        exact Trait.meet_noAccess _
  | false =>
    refine h.congr (fun e => ?_) fun e => ?_
    · rw [hnamed]
      exact ⟨fun he => he.resolve_right fun hb => Bool.false_ne_true hb.2, .inl⟩
    · rw [htrait, Bool.and_false]
      exact Trait.meet_noAccess _

/-- Unknown accesses are noted at nodes of the tree. -/
theorem Noted.node_lt (h : Noted s d named trait l) (w : s.tree.WellFormed) {x : UnknownEntry}
    (hx : x ∈ l.unknowns) : x.node.index < s.tree.nodes.size := by
  obtain ⟨a, ha, hnode⟩ := Option.map_eq_some_iff.mp (h.unknowns x hx)
  rw [← hnode]
  exact w.attributed a (List.mem_reverse.mp (List.mem_of_find?_eq_some ha))

/-! ## Passes that may stop early -/

/-- The ledger the three passes leave, each from where the one before stopped. -/
def resolved (s : Scope) (d : DependenceMap) : Ledger :=
  (s.resolveAddresses (s.resolvePointers (s.resolveAccesses { dependences := d }).1).1).1

/-- However far the passes get, what they leave has every property that observations and the
tracking of unknown accesses keep. -/
theorem resolved_invariant {P : Ledger → Prop} (hinit : P { dependences := d })
    (hobserve : ∀ l em v, P l → P (l.observe s.tree em v))
    (hunknown : ∀ l inst node, s.tree.findUnknown? inst = some node → P l →
      P (l.addUnknown inst node (s.unknownTrait inst)).1) : P (s.resolved d) := by
  -- The four passes in turn: explicit accesses, unknown accesses, pointers and addresses.
  have hnames : P (runSteps s.resolveAccess { dependences := d } s.defUse.explicit).1 := by
    refine runSteps_invariant hinit fun l loc l' h hl => ?_
    obtain ⟨em, -, rfl⟩ := resolveAccess_eq_ok hl
    exact hobserve l em _ h
  have haccesses : P (s.resolveAccesses { dependences := d }).1 := by
    unfold resolveAccesses
    split
    next l hrun =>
      rw [hrun] at hnames
      refine runSteps_invariant hnames fun l inst l' h hl => ?_
      obtain ⟨node, hnode, rfl⟩ := resolveUnknown_eq_ok hl
      exact hunknown l inst node hnode h
    next => exact hnames
  have hpointers : P (s.resolvePointers (s.resolveAccesses { dependences := d }).1).1 := by
    refine runSteps_invariant haccesses fun l loc l' h hl => ?_
    rcases resolvePointer_eq_ok hl with ⟨-, rfl⟩ | ⟨em, -, rfl⟩
    · exact h
    · split
      · exact hobserve l em _ h
      · exact h
  refine runSteps_invariant hpointers fun l ptr l' h hl => ?_
  obtain ⟨em, -, rfl⟩ := resolveAddress_eq_ok hl
  split
  · exact hobserve l em _ h
  · exact h

/-- However far the passes get, the ledger has noted observations. -/
theorem noted_resolved (s : Scope) (d : DependenceMap) :
    ∃ named trait, Noted s d named trait (s.resolved d) := by
  let P (l : Ledger) : Prop := ∃ named trait, Noted s d named trait l
  have hinit : P { dependences := d } := ⟨_, _, .init s d⟩
  refine resolved_invariant hinit (fun l em v ⟨named, trait, h⟩ => ?_)
    fun l inst node hnode ⟨named, trait, h⟩ => ?_
  · exact ⟨_, _, h.observe v (fun _ => Iff.rfl) fun _ => rfl⟩
  · exact ⟨named, trait, h.addUnknown hnode _⟩

/-- The passes succeed together if each does, and leave what the last one left. -/
theorem resolve_eq_ok {l₀ : Ledger} (h : s.resolve l₀ = .ok l) :
    (s.resolveAccesses l₀).2 = .ok ()
      ∧ (s.resolvePointers (s.resolveAccesses l₀).1).2 = .ok ()
      ∧ (s.resolveAddresses (s.resolvePointers (s.resolveAccesses l₀).1).1).2 = .ok ()
      ∧ l = (s.resolveAddresses (s.resolvePointers (s.resolveAccesses l₀).1).1).1 := by
  unfold resolve at h
  cases haccesses : (s.resolveAccesses l₀).2 with
  | error e =>
    simp only [haccesses] at h
    cases h
  | ok _ =>
    cases hpointers : (s.resolvePointers (s.resolveAccesses l₀).1).2 with
    | error e =>
      simp only [haccesses, hpointers] at h
      cases h
    | ok _ =>
      cases haddresses : (s.resolveAddresses (s.resolvePointers (s.resolveAccesses l₀).1).1).2 with
      | error e =>
        simp only [haccesses, hpointers, haddresses] at h
        cases h
      | ok _ =>
        simp only [haccesses, hpointers, haddresses] at h
        exact ⟨rfl, rfl, rfl, (Except.ok.inj h).symm⟩

end Scope

/-! ## The stages of a classification -/

/-- A loop is classified in the scope `s`, from the dependences `d` and the ledger `l` that the
passes leave. -/
structure Stages (settings : Settings) (f : Function) (t : AliasTree) (loop : Loop)
    (depends : DependenceOracle) (modRef : ModRefOracle) (s : Scope) (d : DependenceMap)
    (l : Ledger) : Prop where
  scope : Scope.ofLoop f t loop = .ok s
  dependences : (s.dependenceSource settings depends modRef).collect = .ok d
  ledger : s.resolve { dependences := d } = .ok l

variable {settings : Settings} {f : Function} {t : AliasTree} {loop : Loop}
  {depends : DependenceOracle} {modRef : ModRefOracle} {s : Scope} {d : DependenceMap} {l : Ledger}

/-- The ledger the three passes leave for a loop. -/
def resolveLoop (settings : Settings) (f : Function) (t : AliasTree) (loop : Loop)
    (depends : DependenceOracle) (modRef : ModRefOracle) : Except ClassifyError Ledger := do
  let s ← Scope.ofLoop f t loop
  let dependences ← (s.dependenceSource settings depends modRef).collect
  s.resolve { dependences }

theorem resolveLoop_eq_ok : resolveLoop settings f t loop depends modRef = .ok l ↔
    ∃ s d, Stages settings f t loop depends modRef s d l := by
  unfold resolveLoop
  constructor
  · intro h
    cases hs : Scope.ofLoop f t loop with
    | error e =>
      rw [hs] at h
      cases h
    | ok s =>
      rw [hs] at h
      change ((s.dependenceSource settings depends modRef).collect >>= _) = _ at h
      cases hd : (s.dependenceSource settings depends modRef).collect with
      | error e =>
        rw [hd] at h
        cases h
      | ok d =>
        rw [hd] at h
        exact ⟨s, d, hs, hd, h⟩
  · rintro ⟨s, d, hs, hd, hl⟩
    rw [hs]
    change ((s.dependenceSource settings depends modRef).collect >>= _) = _
    rw [hd]
    exact hl

theorem Stages.scope_eq {s' : Scope} (st : Stages settings f t loop depends modRef s d l)
    (h : Scope.ofLoop f t loop = .ok s') : s = s' :=
  Except.ok.inj (st.scope.symm.trans h)

/-- What the passes leave can be read off a run of them. -/
theorem Stages.eval {α : Type} {a : α} (st : Stages settings f t loop depends modRef s d l)
    (view : Ledger → α)
    (h : (resolveLoop settings f t loop depends modRef).toOption.map view = some a) :
    view l = a := by
  rw [resolveLoop_eq_ok.mpr ⟨s, d, st⟩] at h
  exact Option.some.inj h

/-- A loop is classified if the passes succeed: what comes after them always does. -/
theorem classifyLoop_eq_ok {result : LoopResult} :
    classifyLoop settings f t loop depends modRef = .ok result ↔
      ∃ s d l, Stages settings f t loop depends modRef s d l ∧ result = s.finish l settings := by
  -- Classifying a loop is resolving it and then finishing, once its facts were found.
  have hbind : classifyLoop settings f t loop depends modRef
      = (Scope.ofLoop f t loop).bind fun s =>
        (resolveLoop settings f t loop depends modRef).map fun l => s.finish l settings := by
    unfold classifyLoop resolveLoop
    cases Scope.ofLoop f t loop with
    | error e => rfl
    | ok s =>
      show ((s.dependenceSource settings depends modRef).collect >>= _)
        = ((s.dependenceSource settings depends modRef).collect >>= _).map _
      cases (s.dependenceSource settings depends modRef).collect with
      | error e => rfl
      | ok d =>
        show (s.resolve { dependences := d } >>= _) = (s.resolve { dependences := d }).map _
        cases s.resolve { dependences := d } <;> rfl
  rw [hbind]
  constructor
  · intro h
    cases hs : Scope.ofLoop f t loop with
    | error e =>
      rw [hs] at h
      cases h
    | ok s =>
      rw [hs] at h
      obtain ⟨l, hl, rfl⟩ := map_eq_ok h
      obtain ⟨s', d, st⟩ := resolveLoop_eq_ok.mp hl
      obtain rfl : s' = s := Except.ok.inj (st.scope.symm.trans hs)
      exact ⟨s', d, l, st, rfl⟩
  · rintro ⟨s, d, l, st, rfl⟩
    rw [st.scope, resolveLoop_eq_ok.mpr ⟨s, d, st⟩]
    rfl

/-- The scope of a loop is made of the facts recorded for it. -/
theorem Scope.ofLoop_eq_ok (h : Scope.ofLoop f t loop = .ok s) :
    s.function = f ∧ s.tree = t ∧ s.loop = loop ∧ f.defUse.get? loop.id = some s.defUse
      ∧ f.live.get? loop.id = some s.live := by
  -- The facts of the loop are looked up one after the other, and all of them are needed.
  unfold Scope.ofLoop at h
  cases hdefUse : f.defUse.get? loop.id with
  | none =>
    rw [hdefUse] at h
    cases h
  | some defUse =>
    cases hlive : f.live.get? loop.id with
    | none =>
      rw [hdefUse, hlive] at h
      cases h
    | some live =>
      cases hlatch : f.reach.get? loop.latch with
      | none =>
        rw [hdefUse, hlive, hlatch] at h
        cases h
      | some latch =>
        cases hexit : f.reach.get? loop.exit with
        | none =>
          rw [hdefUse, hlive, hlatch, hexit] at h
          cases h
        | some exit =>
          rw [hdefUse, hlive, hlatch, hexit] at h
          cases h
          exact ⟨rfl, rfl, rfl, rfl, rfl⟩

/-- A scope has the definitions recorded at the latch and at the exit of its loop. -/
theorem Scope.reach_ofLoop (h : Scope.ofLoop f t loop = .ok s) :
    f.reach.get? loop.latch = some s.latch ∧ f.reach.get? loop.exit = some s.exit := by
  obtain ⟨defUse, -, h⟩ := bind_eq_ok h
  obtain ⟨live, -, h⟩ := bind_eq_ok h
  obtain ⟨latch, hlatch, h⟩ := bind_eq_ok h
  obtain ⟨exit, hexit, h⟩ := bind_eq_ok h
  cases h
  exact ⟨require_eq_ok.mp hlatch, require_eq_ok.mp hexit⟩

/-! ## A loop to run the passes on -/

/-- A loop of two blocks. -/
def twoBlocks : Loop where
  id := ⟨0⟩
  name := "body"
  header := ⟨1⟩
  blocks := ⟨[⟨1⟩, ⟨2⟩], by decide⟩
  latch := ⟨0⟩
  exit := ⟨1⟩
  depth := 1
  start := none
  parent := none

theorem exists_of_isOk {ε α : Type} {x : Except ε α} (h : x.isOk = true) : ∃ a, x = .ok a := by
  cases x with
  | error e => cases h
  | ok a => exact ⟨a, rfl⟩

end Privatization
