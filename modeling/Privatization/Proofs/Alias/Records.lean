import Mathlib.Logic.Basic
import Mathlib.Tactic.SplitIfs
import Privatization.Collection.OrderedMap
import Privatization.Proofs.Alias.Growth

/-!
# Building linked records

What a node or a memory contains can be read off the parents, as an alias tree does. A builder may
as well keep it: every node lists its children, its memory and its unknown accesses, every memory
its parts, and an addition updates the lists of what it adds to (`Records`). An addition checks what
it was given before its first update, so one that is refused changes nothing
(`eq_of_run_make_error`).
-/

namespace Privatization

namespace AliasTree

/-- A node with all it contains, in the order of the additions. -/
structure NodeRecord where
  kind : AliasNodeKind
  parent : Option AliasNodeId
  children : List AliasNodeId
  estimates : List EstimateId
  unknowns : List InstId

namespace NodeRecord

/-- Lists a child in the record of its parent. -/
def addChild (c : AliasNodeId) (n : NodeRecord) : NodeRecord :=
  { n with children := n.children ++ [c] }

/-- Lists a memory in the record of its node. -/
def addEstimate (e : EstimateId) (n : NodeRecord) : NodeRecord :=
  { n with estimates := n.estimates ++ [e] }

/-- Lists an unknown access in the record of its node. -/
def addUnknown (inst : InstId) (n : NodeRecord) : NodeRecord :=
  { n with unknowns := n.unknowns ++ [inst] }

end NodeRecord

/-- An estimate memory with its parts, in the order of the additions. -/
structure EstimateRecord where
  pointers : List ValueId
  size : Option Nat
  offset : Nat
  parent : Option EstimateId
  children : List EstimateId
  node : AliasNodeId

def EstimateRecord.addPart (p : EstimateId) (e : EstimateRecord) : EstimateRecord :=
  { e with children := e.children ++ [p] }

/-- A tree as a builder keeps it. Records are numbered by their places. -/
structure Records where
  nodes : Array NodeRecord
  estimates : Array EstimateRecord
  /-- The node each unknown access was last attributed to. -/
  unknowns : OrderedMap InstId AliasNodeId

namespace Records

/-- The records of the root alone. -/
def root : Records where
  nodes := #[⟨.top, none, [], [], []⟩]
  estimates := #[]
  unknowns := ∅

/-- Whether a climb from `n` over the stored parents meets `a` within some turns. -/
def climbs (r : Records) (a : AliasNodeId) : Nat → AliasNodeId → Bool
  | 0, _ => false
  | turns + 1, n => n == a || ((r.nodes[n.index]?).bind (·.parent)).any (r.climbs a turns)

/-- Whether `a` is `n` or a node around it. -/
def isNodeAncestor (r : Records) (a n : AliasNodeId) : Bool := r.climbs a r.nodes.size n

/-! ### Updates -/

def pushNode (n : NodeRecord) (r : Records) : Records := { r with nodes := r.nodes.push n }

def pushEstimate (e : EstimateRecord) (r : Records) : Records :=
  { r with estimates := r.estimates.push e }

/-- Lists a node among the children of another. -/
def listChild (n child : AliasNodeId) (r : Records) : Records :=
  { r with nodes := r.nodes.modify n.index (.addChild child) }

/-- Lists a memory at a node. -/
def listEstimate (n : AliasNodeId) (e : EstimateId) (r : Records) : Records :=
  { r with nodes := r.nodes.modify n.index (.addEstimate e) }

/-- Lists a memory among the parts of another. -/
def listPart (m part : EstimateId) (r : Records) : Records :=
  { r with estimates := r.estimates.modify m.index (.addPart part) }

/-- Lists an unknown access at a node and keeps where it was attributed. -/
def listUnknown (n : AliasNodeId) (inst : InstId) (r : Records) : Records where
  nodes := r.nodes.modify n.index (.addUnknown inst)
  estimates := r.estimates
  unknowns := r.unknowns.insert inst n

/-! ### Additions -/

/-- A step that builds. One that is refused ends with the records as they are by then. -/
abbrev Build (α : Type) : Type := EStateM ModelError Records α

/-- Refuses to go on, for the reason `e`, unless `p` holds. -/
def require (p : Prop) [Decidable p] (e : ModelError) : Build Unit :=
  if p then return () else throw e

/-- Adds a node below `parent`. -/
def addNode (parent : AliasNodeId) (kind : AliasNodeKind) : Build AliasNodeId := do
  let r ← get
  require (parent.index < r.nodes.size) (.unknownAliasNode parent)
  require (kind ≠ .top) .secondTop
  let n : AliasNodeId := ⟨r.nodes.size⟩
  modify (pushNode { kind, parent := some parent, children := [], estimates := [], unknowns := [] })
  modify (listChild parent n)
  return n

/-- Lists new memory of `node` at its parent, if it has one. -/
def joinParent (node : AliasNodeId) (e : EstimateId) : Option EstimateId → Build Unit
  | none => return ()
  | some p => do
    let r ← get
    match r.estimates[p.index]? with
    | none => throw (.unknownEstimate p)
    | some outer =>
      require (r.isNodeAncestor outer.node node) (.notEnclosing p outer.node node)
      modify (listPart p e)

/-- Adds an estimate memory to `node`. -/
def addEstimate (node : AliasNodeId) (pointers : List ValueId) (size : Option Nat) (offset : Nat)
    (parent : Option EstimateId) : Build EstimateId := do
  let r ← get
  require (node.index < r.nodes.size) (.unknownAliasNode node)
  require (pointers ≠ []) .noPointer
  let e : EstimateId := ⟨r.estimates.size⟩
  joinParent node e parent
  modify (pushEstimate { pointers, size, offset, parent, children := [], node })
  modify (listEstimate node e)
  return e

/-- Attributes an unknown access to `node`. -/
def addUnknown (node : AliasNodeId) (inst : InstId) : Build Unit := do
  let r ← get
  require (node.index < r.nodes.size) (.unknownAliasNode node)
  modify (listUnknown node inst)

/-- Makes an addition. -/
def make : Addition → Build Unit
  | .node parent kind => discard (addNode parent kind)
  | .estimate node pointers size offset parent =>
    discard (addEstimate node pointers size offset parent)
  | .unknown node inst => addUnknown node inst

/-- The records an addition leaves behind, whether it was made or refused. -/
def after (r : Records) (a : Addition) : Records :=
  match (make a).run r with
  | .ok _ r' => r'
  | .error _ r' => r'

/-- The records that additions build from the root alone. -/
def built (additions : List Addition) : Records := additions.foldl after root

/-! ## Runs -/

section Runs

variable {r : Records}

theorem run_require {α : Type} {p : Prop} [Decidable p] {e : ModelError} {rest : Build α} :
    (require p e >>= fun _ => rest).run r = if p then rest.run r else .error e r := by
  unfold require
  split <;> rfl

/-- Adding a node to the records: the parent must exist, and only the first node is the root. -/
theorem run_addNode {parent : AliasNodeId} {kind : AliasNodeKind} :
    (addNode parent kind).run r =
      if parent.index < r.nodes.size then
        if kind ≠ .top then
          .ok ⟨r.nodes.size⟩ (listChild parent ⟨r.nodes.size⟩ (pushNode
            { kind, parent := some parent, children := [], estimates := [], unknowns := [] } r))
        else .error .secondTop r
      else .error (.unknownAliasNode parent) r := by
  show (require _ _ >>= fun _ => require _ _ >>= fun _ => _).run r = _
  rw [run_require, run_require]
  rfl

/-- Joining a memory to its parent: the parent must exist, and live at or around its node. -/
theorem run_joinParent {node : AliasNodeId} {e p : EstimateId} :
    (joinParent node e (some p)).run r =
      match r.estimates[p.index]? with
      | none => .error (.unknownEstimate p) r
      | some outer =>
        if r.isNodeAncestor outer.node node then .ok () (listPart p e r)
        else .error (.notEnclosing p outer.node node) r := by
  show EStateM.run (match r.estimates[p.index]? with | none => _ | some outer => _) r = _
  cases r.estimates[p.index]? with
  | none => rfl
  | some outer => exact run_require

/-- Adding a memory to the records: its node must exist, it needs a pointer, and its parent must
fit. -/
theorem run_addEstimate {node : AliasNodeId} {pointers : List ValueId} {size : Option Nat}
    {offset : Nat} {parent : Option EstimateId} :
    (addEstimate node pointers size offset parent).run r =
      if node.index < r.nodes.size then
        if pointers ≠ [] then
          match (joinParent node ⟨r.estimates.size⟩ parent).run r with
          | .ok _ r' => .ok ⟨r.estimates.size⟩ (listEstimate node ⟨r.estimates.size⟩
              (pushEstimate { pointers, size, offset, parent, children := [], node } r'))
          | .error e r' => .error e r'
        else .error .noPointer r
      else .error (.unknownAliasNode node) r := by
  show (require _ _ >>= fun _ => require _ _ >>= fun _ => _).run r = _
  rw [run_require, run_require]
  refine if_congr Iff.rfl (if_congr Iff.rfl ?_ rfl) rfl
  show EStateM.bind (joinParent _ _ _) _ r = _
  unfold EStateM.bind EStateM.run
  cases joinParent node ⟨r.estimates.size⟩ parent r <;> rfl

/-- Attributing an unknown access: the node must exist. -/
theorem run_addUnknown {node : AliasNodeId} {inst : InstId} :
    (addUnknown node inst).run r =
      if node.index < r.nodes.size then .ok () (listUnknown node inst r)
      else .error (.unknownAliasNode node) r :=
  run_require

theorem run_discard {α : Type} {x : Build α} :
    (discard x).run r = match x.run r with
      | .ok _ r' => .ok () r'
      | .error e r' => .error e r' := by
  show EStateM.map _ x r = _
  unfold EStateM.map EStateM.run
  cases x r <;> rfl

end Runs

/-- An addition that is refused changes nothing. -/
theorem eq_of_run_make_error {a : Addition} {r r' : Records} {e : ModelError}
    (h : (make a).run r = .error e r') : r' = r := by
  cases a with
  | node parent kind =>
    -- Each addition checks before it writes.
    have h := run_discard.symm.trans h
    rw [run_addNode] at h
    split_ifs at h
    all_goals cases h; rfl
  | estimate node pointers size offset parent =>
    have h := run_discard.symm.trans h
    rw [run_addEstimate] at h
    split_ifs at h
    · cases parent with
      | none => cases h
      | some p =>
        rw [run_joinParent] at h
        cases houter : r.estimates[p.index]? with
        | none => rw [houter] at h; cases h; rfl
        | some outer =>
          rw [houter] at h
          dsimp only at h
          split_ifs at h
          cases h
          rfl
    all_goals cases h; rfl
  | unknown node inst =>
    have h := run_addUnknown.symm.trans h
    split_ifs at h
    cases h
    rfl

end Records

end AliasTree

end Privatization
