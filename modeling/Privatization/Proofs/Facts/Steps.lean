import Privatization.Proofs.Facts.Relabeling

/-!
# What statements do

What an accepted statement does to a function under construction is told once for each keyword. A
declaration adds one item under a name (`Draft.Adds`), and the facts about loops, data-flow nodes
and instructions are kept apart from everything else (`Draft.Annotates`).
-/

namespace Privatization.Facts

/-- Where a run succeeds, its result has a property. -/
def Ensures {ε α : Type} (P : α → Prop) (x : Except ε α) : Prop := ∀ a, x = .ok a → P a

namespace Ensures

variable {ε α β : Type} {P : β → Prop}

theorem ok {b : β} (h : P b) : Ensures P (.ok b : Except ε β) := fun _ hb => Except.ok.inj hb ▸ h

/-- A run that fails ensures everything. -/
theorem error {e : ε} : Ensures P (.error e : Except ε β) := fun _ hb => nomatch hb

/-- What is ensured may be weakened. -/
theorem mono {Q : β → Prop} {x : Except ε β} (h : Ensures P x) (hPQ : ∀ b, P b → Q b) :
    Ensures Q x := fun b hb => hPQ b (h b hb)

/-- A chain ensures what its second part ensures after every success of the first. -/
theorem bind {x : Except ε α} {f : α → Except ε β} (h : ∀ a, x = .ok a → Ensures P (f a)) :
    Ensures P (x >>= f) := by
  intro b hb
  obtain ⟨a, ha, hb⟩ := bind_eq_ok hb
  exact h a ha b hb

end Ensures

/-- Rewording an error is no success. -/
theorem mapError_eq_ok {ε ε' α : Type} {f : ε → ε'} {x : Except ε α} {a : α}
    (h : x.mapError f = .ok a) : x = .ok a := by
  cases x with
  | error e => cases h
  | ok a' => exact congrArg Except.ok (Except.ok.inj h)

/-- What is looked up as declared was there. -/
theorem declared_eq_ok {α : Type} {sort : Declared} {name : String} {o : Option α} {a : α}
    (h : Draft.declared sort name o = .ok a) : o = some a := by
  cases o with
  | none => cases h
  | some a' => exact congrArg some (Except.ok.inj h)

/-- A label that is not taken has no item. -/
theorem contains_eq_false {α : Type} {m : OrderedMap String α} {label : String}
    (h : ¬m.contains label = true) : m.get? label = none := by
  rw [OrderedMap.contains_eq] at h
  exact Option.not_isSome_iff_eq_none.mp h

namespace Statement

/-- What the statement puts its item in: the item that is found under the name given as parent, or
`outermost` if no name is given. -/
def Places {α : Type} (s : Statement) (find : String → Except StatementError α)
    (outermost parent : α) : Prop :=
  (s.nameAttr? "parent").elim (parent = outermost) (find · = .ok parent)

variable {s : Statement} {α : Type} {find : String → Except StatementError α} {parent : α}

/-- Without a name for the parent, an item is put in the outermost place. -/
theorem places_outermost (h : s.nameAttr? "parent" = none) (outermost : α) :
    s.Places find outermost outermost := by
  unfold Places
  rw [h]
  rfl

/-- With a name, it is put in what is found under that name. -/
theorem places_named {p : String} (h : s.nameAttr? "parent" = some p) (hp : find p = .ok parent)
    (outermost : α) : s.Places find outermost parent := by
  unfold Places
  rw [h]
  exact hp

end Statement

/-- What a declaration does to a function under construction, by the sort of what it declares. -/
inductive Draft.Adds (b : Draft) (s : Statement) (name : String) : Declared → Draft → Prop
  | value (v : Value) (hname : v.name = name) (hnew : b.function.findValue? name = none) :
      Adds b s name .value { b with function := b.function.addValue v }
  | inst (block : BlockId) (op : Operation) (hnew : b.instLabels.get? name = none) :
      Adds b s name .instruction { b with
        function := (b.function.addInstruction block op).1
        instLabels := b.instLabels.insert name (b.function.addInstruction block op).2 }
  | node {t : AliasTree} {parent n : AliasNodeId} {kind : AliasNodeKind} (htop : name ≠ "top")
      (hnew : b.nodeLabels.get? name = none) (hparent : s.Places b.node AliasTree.top parent)
      (h : b.tree.addNode parent kind = .ok (t, n)) :
      Adds b s name .aliasNode { b.withTree t with nodeLabels := b.nodeLabels.insert name n }
  | estimate {t : AliasTree} {node : AliasNodeId} {pointers : List ValueId} {size : Option Nat}
      {offset : Nat} {parent : Option EstimateId} {e : EstimateId}
      (hnew : b.estimateLabels.get? name = none)
      (hpointers : ∀ v ∈ pointers, ∃ p, b.value p = .ok v)
      (hparent : s.Places (fun p => (b.estimate p).map some) none parent)
      (h : b.tree.addEstimate node pointers size offset parent = .ok (t, e)) :
      Adds b s name .estimate
        { b.withTree t with estimateLabels := b.estimateLabels.insert name e }
  | loop {loops : LoopNest} {spec : LoopNest.LoopSpec} {id : LoopId} (hname : spec.name = name)
      (hparent : s.Places (fun p => (b.loop p).map some) none spec.parent)
      (h : b.function.loops.add spec = .ok (loops, id)) :
      Adds b s name .loop { b with function := { b.function with loops } }

/-- The statement declares an item of a sort, under the name it has. -/
def Draft.Declaration (b : Draft) (s : Statement) (sort : Declared) (b' : Draft) : Prop :=
  ∃ name, s.name? 0 = some name ∧ b.Adds s name sort b'

/-- The draft gets other answers about loops, data-flow nodes and instructions, and nothing else. -/
def Draft.Annotates (b b' : Draft) : Prop := ∃ live reach dependences modRefs,
  b' = { b with function := { b.function with live, reach, dependences, modRefs } }

variable {b b' : Draft}

/-! ## Declarations -/

/-- A value statement declares a value. -/
theorem addValue_adds (s : Statement) : Ensures (b.Declaration s .value) (b.addValue s) := by
  refine .bind fun name hname => ?_
  split
  · exact .error
  next hnew =>
    refine .bind fun kind _ => .bind fun source _ => .ok ⟨name, Statement.name?_of_nameAt hname, ?_⟩
    exact .value _ rfl (Option.not_isSome_iff_eq_none.mp hnew)

/-- An instruction statement declares an instruction under its label. -/
theorem addInst_adds (s : Statement) : Ensures (b.Declaration s .instruction) (b.addInst s) := by
  refine .bind fun label hname => ?_
  split
  · exact .error
  next hnew =>
    refine .bind fun block _ => .bind fun op _ => .ok ⟨label, Statement.name?_of_nameAt hname, ?_⟩
    exact .inst ⟨block⟩ op (contains_eq_false hnew)

/-- An alias statement declares a node, in the one named as parent or at the root. -/
theorem addAlias_adds (s : Statement) : Ensures (b.Declaration s .aliasNode) (b.addAlias s) := by
  refine .bind fun label hname => ?_
  -- What follows an optional attribute is one continuation, whichever way it is come to.
  extract_lets atParent rest
  split
  · exact .error
  next hnew =>
    rw [Bool.or_eq_true, not_or, decide_eq_true_eq] at hnew
    have hparent (parent : AliasNodeId) (hplace : s.Places b.node AliasTree.top parent) :
        Ensures (b.Declaration s .aliasNode) (atParent parent) := by
      unfold atParent
      extract_lets atKind
      have hkind (kind : AliasNodeKind) :
          Ensures (b.Declaration s .aliasNode) (atKind kind) := by
        refine .bind fun r ht => .ok ⟨label, Statement.name?_of_nameAt hname, ?_⟩
        exact .node hnew.1 (contains_eq_false hnew.2) hplace (mapError_eq_ok ht)
      -- Every kind of node ends in the same continuation.
      split
      · exact hkind _
      · exact hkind _
      · exact hkind _
      · exact .error
    unfold rest
    cases hattr : s.nameAttr? "parent" with
    | none => exact hparent AliasTree.top (Statement.places_outermost hattr _)
    | some p =>
      exact .bind fun parent hp => hparent parent (Statement.places_named hattr hp _)

/-- An estimate statement declares memory whose pointers are declared values, in the one named as
parent or in none. -/
theorem addEstimate_adds (s : Statement) :
    Ensures (b.Declaration s .estimate) (b.addEstimate s) := by
  refine .bind fun label hname => ?_
  extract_lets atNode rest
  split
  · exact .error
  next hnew =>
    have hnode (node : AliasNodeId) : Ensures (b.Declaration s .estimate) (atNode node) := by
      refine .bind fun data _ => .bind fun pointers hpointers => ?_
      have hdeclared : ∀ v ∈ pointers, ∃ p, b.value p = .ok v := by
        intro v hv
        obtain ⟨d, -, hd⟩ := exists_of_mem_mapM hpointers hv
        split at hd
        · exact ⟨_, hd⟩
        · cases hd
      -- Node, size, offset and parent are read one after the other; each continuation is dealt with
      -- for every answer it may be given.
      extract_lets atSize
      have hsize (size : Option Nat) : Ensures (b.Declaration s .estimate) (atSize size) := by
        unfold atSize
        extract_lets atOffset
        have hoffset (offset : Nat) :
            Ensures (b.Declaration s .estimate) (atOffset offset) := by
          unfold atOffset
          extract_lets atParent
          have hparent (parent : Option EstimateId)
              (hplace : s.Places (fun p => (b.estimate p).map some) none parent) :
              Ensures (b.Declaration s .estimate) (atParent parent) := by
            refine .bind fun r ht => .ok ⟨label, Statement.name?_of_nameAt hname, ?_⟩
            exact .estimate (contains_eq_false hnew) hdeclared hplace (mapError_eq_ok ht)
          cases hattr : s.nameAttr? "parent" with
          | none => exact hparent none (Statement.places_outermost hattr _)
          | some p =>
            exact .bind fun parent hp => hparent parent (Statement.places_named hattr hp _)
        cases s.attr? "offset" with
        | none => exact hoffset 0
        | some d => exact .bind fun offset _ => hoffset offset
      split
      · exact hsize none
      · exact hsize none
      · exact .bind fun size _ => hsize size
    unfold rest
    cases s.nameAttr? "node" with
    | none => exact .error
    | some name => exact .bind fun node _ => hnode node

/-- A loop statement declares a loop, in the one named as parent or in none. -/
theorem addLoop_adds (s : Statement) : Ensures (b.Declaration s .loop) (b.addLoop s) := by
  refine .bind fun name hname => ?_
  extract_lets _ rest
  have hrest (parent : Option LoopId)
      (hplace : s.Places (fun p => (b.loop p).map some) none parent) :
      Ensures (b.Declaration s .loop) (rest parent) := by
    refine .bind fun data _ => .bind fun blocks _ => .bind fun start _ => .bind fun header _ => ?_
    refine .bind fun latch _ => .bind fun exit _ => .bind fun r hloops => ?_
    refine .ok ⟨name, Statement.name?_of_nameAt hname, ?_⟩
    exact .loop rfl hplace (mapError_eq_ok hloops)
  cases hattr : s.nameAttr? "parent" with
  | none => exact hrest none (Statement.places_outermost hattr _)
  | some p => exact .bind fun parent hp => hrest parent (Statement.places_named hattr hp _)

/-! ## Facts about loops, data-flow nodes and instructions

Each of these statements replaces one map of the function. -/

/-- The memory that is live after loops is replaced. -/
def Draft.SetsLive (b b' : Draft) : Prop :=
  ∃ live, b' = { b with function := { b.function with live } }

/-- The definitions that reach one node are replaced. The set of what may reach it takes in what
must. -/
def Draft.SetsReach (b : Draft) (s : Statement) (b' : Draft) : Prop :=
  ∃ node must may, b.locations s "must" = .ok must ∧ b.locations s "may" = .ok may
    ∧ b' = { b with function := { b.function with
        reach := b.function.reach.insert node
          { must := .ofList must
            may := (LocationSet.ofList may).insertAll (LocationSet.ofList must).locations } } }

/-- The answers of the dependence test are replaced. -/
def Draft.SetsDependences (b b' : Draft) : Prop :=
  ∃ dependences, b' = { b with function := { b.function with dependences } }

/-- The answers to mod/ref queries are replaced. -/
def Draft.SetsModRefs (b b' : Draft) : Prop :=
  ∃ modRefs, b' = { b with function := { b.function with modRefs } }

/-- A live statement touches nothing else. -/
theorem addLive_sets (s : Statement) : Ensures b.SetsLive (b.addLive s) := by
  refine .bind fun name _ => .bind fun loop _ => .bind fun locations _ => ?_
  exact .ok ⟨_, rfl⟩

/-- A reach statement touches nothing but what it was given for its node. -/
theorem setReach_sets (s : Statement) : Ensures (b.SetsReach s) (b.setReach s) := by
  unfold Draft.setReach
  extract_lets _ rest
  have hrest (node : Nat) : Ensures (b.SetsReach s) (rest node) := by
    refine .bind fun must hmust => .bind fun may hmay => ?_
    exact .ok ⟨⟨node⟩, must, may, hmust, hmay, rfl⟩
  cases s.positional[0]? with
  | none => exact .error
  | some d => exact .bind fun node _ => hrest node

/-- A dependence statement touches nothing but the dependences, whatever its kind. -/
theorem setDependence_sets (s : Statement) : Ensures b.SetsDependences (b.setDependence s) := by
  refine .bind fun label _ => .bind fun src _ => .bind fun label _ => .bind fun dst _ => ?_
  refine .bind fun word _ => ?_
  extract_lets _ rest
  have hrest (kind : DependenceKind) : Ensures b.SetsDependences (rest kind) := by
    refine .bind fun directions _ => .bind fun distances _ => ?_
    exact .ok ⟨_, rfl⟩
  split
  · exact hrest _
  · exact hrest _
  · exact hrest _
  · exact hrest _
  · exact .error

theorem setModRef_sets (s : Statement) : Ensures b.SetsModRefs (b.setModRef s) := by
  refine .bind fun label _ => .bind fun inst _ => ?_
  extract_lets _ rest
  have hrest (loc : MemoryLocation) : Ensures b.SetsModRefs (rest loc) := by
    refine .bind fun word _ => ?_
    split
    · exact .ok ⟨_, rfl⟩
    · exact .error
  cases s.positional[1]? with
  | none => exact .error
  | some d => exact .bind fun loc _ => hrest loc

/-- A live statement is about a loop. -/
theorem addLive_annotates (s : Statement) : Ensures b.Annotates (b.addLive s) :=
  (addLive_sets s).mono fun _ ⟨live, h⟩ => ⟨live, _, _, _, h⟩

theorem setReach_annotates (s : Statement) : Ensures b.Annotates (b.setReach s) :=
  (setReach_sets s).mono fun _ ⟨_, _, _, _, _, h⟩ => ⟨_, _, _, _, h⟩

theorem setDependence_annotates (s : Statement) : Ensures b.Annotates (b.setDependence s) :=
  (setDependence_sets s).mono fun _ ⟨dependences, h⟩ => ⟨_, _, dependences, _, h⟩

theorem setModRef_annotates (s : Statement) : Ensures b.Annotates (b.setModRef s) :=
  (setModRef_sets s).mono fun _ ⟨modRefs, h⟩ => ⟨_, _, _, modRefs, h⟩

end Privatization.Facts
