import Privatization.Proofs.Alias.Growth
import Privatization.Proofs.Facts.Steps
import Privatization.Proofs.Forest.Nests

/-!
# What declarations leave

The items of a function are numbered sort by sort in the order in which they are declared, so the
names that the statements of a section declare are a table of contents (`names`): an item has the
number of its place, a name stands for the first item of that name (`number`), and an item lies
inside the one that its statement names (`Statement.parentIn`). What a function under construction
knows of the items of one sort is its `Draft.table`. One statement adds at most one item to one
table (`step_declares`); what it adds is told once, by `Draft.Declares`.
-/

namespace Privatization

namespace Function

open Facts

variable (f : Function)

/-- The alias tree, which is the root alone if there is none. -/
def tree : AliasTree := f.aliasTree.getD ∅

/-- How many items of a sort there are. -/
def count : Declared → Nat
  | .value => f.values.size
  | .instruction => f.instructions.size
  | .aliasNode => f.tree.nodes.size
  | .estimate => f.tree.estimates.size
  | .loop => f.loops.loops.size

/-- The name an item keeps. Labels of instructions, alias nodes and estimate memories are lost. -/
def name? : Declared → Nat → Option String
  | .value, i => f.values[i]?.map (·.name)
  | .loop, i => f.loops.loops[i]?.map (·.name)
  | _, _ => none

/-- The item that an item lies in. -/
def parent? : Declared → Nat → Option Nat
  | .aliasNode, i => f.tree.nodeForest.parent i
  | .estimate, i => f.tree.estimateForest.parent i
  | .loop, i => f.loops.forest.parent i
  | _, _ => none

end Function

namespace Facts

/-! ## What statements say -/

namespace Declared

/-- All sorts. -/
def all : List Declared := [value, instruction, aliasNode, estimate, loop]

/-- The list leaves out no sort. -/
theorem mem_all (sort : Declared) : sort ∈ all := by
  cases sort <;> decide

/-- The keyword of the statements that declare items of a sort. -/
def keyword : Declared → String
  | value => "value"
  | instruction => "inst"
  | aliasNode => "alias"
  | estimate => "estimate"
  | loop => "loop"

/-- The keyword of a statement tells the sort that it declares. -/
theorem keyword_injective : Function.Injective keyword := by
  intro sort sort' h
  cases sort <;> cases sort' <;> first | rfl | exact absurd h (by decide)

/-- No item is declared by the statement that opens a function. -/
theorem keyword_ne_function (sort : Declared) : sort.keyword ≠ "function" := by
  cases sort <;> decide

/-- Whether items of the sort lie in one another. -/
def nests : Declared → Bool
  | value | instruction => false
  | aliasNode | estimate | loop => true

/-- Where an item lies whose statement gives no other item: alias nodes lie in the root. -/
def outermost : Declared → Option Nat
  | aliasNode => some 0
  | _ => none

/-- Whether an item keeps its name. -/
def keepsName : Declared → Bool
  | value | loop => true
  | instruction | aliasNode | estimate => false

/-- The names that are there before any statement: the root of the alias tree has one. -/
def initial : Declared → List String
  | aliasNode => ["top"]
  | _ => []

end Declared

/-- The names of the items of a sort in the order of their numbers. -/
def names (sort : Declared) (body : List Statement) : List String :=
  sort.initial ++ labels sort.keyword body

/-- The number that a name stands for behind the statements: that of the first item of the name. -/
def number (sort : Declared) (body : List Statement) (name : String) : Option Nat :=
  (names sort body).idxOf? name

/-- The number of the item that a statement puts its own item in, with `find?` for the numbers that
names stand for. -/
def Statement.parentIn (s : Statement) (sort : Declared) (find? : String → Option Nat) :
    Option Nat :=
  if sort.nests then (s.nameAttr? "parent").elim sort.outermost find? else none

section Names

/-- A statement that gives no parent puts its item where items of the sort lie by default. -/
theorem Statement.parentIn_of_none {s : Statement} {sort : Declared}
    (h : s.nameAttr? "parent" = none) (hnests : sort.nests = true)
    (find? : String → Option Nat) : s.parentIn sort find? = sort.outermost := by
  rw [parentIn, if_pos hnests, h, Option.elim_none]

/-- A statement that gives a parent puts its item in the one that the name stands for. -/
theorem Statement.parentIn_of_some {s : Statement} {sort : Declared} {p : String}
    (h : s.nameAttr? "parent" = some p) (hnests : sort.nests = true)
    (find? : String → Option Nat) : s.parentIn sort find? = find? p := by
  rw [parentIn, if_pos hnests, h, Option.elim_some]

variable {sort : Declared} {body : List Statement} {s : Statement} {name : String}

/-- The names of two runs of statements follow one another. -/
theorem names_append (sort : Declared) (xs ys : List Statement) :
    names sort (xs ++ ys) = names sort xs ++ labels sort.keyword ys := by
  unfold names labels
  rw [List.filter_append, List.filterMap_append, List.append_assoc]

/-- One declaration declares the name at its first place. -/
theorem labels_singleton (h : s.keyword = sort.keyword) (hname : s.name? 0 = some name) :
    labels sort.keyword [s] = [name] := by
  simp [labels, h, hname]

/-- A statement of the sort's keyword appends its name. -/
theorem names_concat_of_declares (body : List Statement) (h : s.keyword = sort.keyword)
    (hname : s.name? 0 = some name) : names sort (body ++ [s]) = names sort body ++ [name] := by
  rw [names_append, labels_singleton h hname]

/-- A statement of another keyword leaves the names. -/
theorem names_concat_of_ne (body : List Statement) (h : s.keyword ≠ sort.keyword) :
    names sort (body ++ [s]) = names sort body := by
  rw [names_append]
  simp [labels, h]

/-- Only a name that is not declared stands for nothing. -/
theorem number_eq_none : number sort body name = none ↔ name ∉ names sort body :=
  List.idxOf?_eq_none_iff

/-- A name that is already borne stands for the item it stood for. -/
theorem number_concat (h : names sort (body ++ [s]) = names sort body ++ [name]) (n : String) :
    number sort (body ++ [s]) n
      = (number sort body n).or (if n = name then some (names sort body).length else none) := by
  unfold number List.idxOf?
  rw [h, List.findIdx?_append]
  congr 1
  by_cases h : n = name
  · simp [h]
  · simp [h, Ne.symm h]

end Names

/-! ## Tables of items -/

/-- What is known of the items of one sort. -/
@[ext]
structure Table where
  size : Nat
  /-- The number that a name stands for. -/
  find? : String → Option Nat
  /-- The name that an item keeps. -/
  name? : Nat → Option String
  /-- The item that an item lies in. -/
  parent? : Nat → Option Nat

/-- One more item. A name that is already borne stands for the item it stood for. -/
def Table.add (t : Table) (name : String) (kept : Option String) (parent : Option Nat) : Table where
  size := t.size + 1
  find? n := (t.find? n).or (if n = name then some t.size else none)
  name? i := if i = t.size then kept else t.name? i
  parent? i := if i = t.size then parent else t.parent? i

/-- The number that a name stands for. -/
def Draft.find? (b : Draft) : Declared → String → Option Nat
  | .value, name => (b.function.findValue? name).map (·.index)
  | .instruction, name => (b.instLabels.get? name).map (·.index)
  | .aliasNode, name => if name = "top" then some 0 else (b.nodeLabels.get? name).map (·.index)
  | .estimate, name => (b.estimateLabels.get? name).map (·.index)
  | .loop, name => (b.function.loops.find? name).map (·.index)

/-- What a draft knows of the items of a sort. -/
def Draft.table (b : Draft) (sort : Declared) : Table where
  size := b.function.count sort
  find? := b.find? sort
  name? := b.function.name? sort
  parent? := b.function.parent? sort

/-- The statement adds one item under a name. The name is new unless it is that of a loop, and a
name given as parent is known. -/
structure Draft.Declares (b : Draft) (sort : Declared) (s : Statement) (name : String)
    (b' : Draft) : Prop where
  named : s.name? 0 = some name
  fresh : sort ≠ .loop → b.find? sort name = none
  known : sort.nests = true → ∀ p, s.nameAttr? "parent" = some p → ∃ i, b.find? sort p = some i
  table : ∀ t, b'.table t = if t = sort then
      (b.table sort).add name (if sort.keepsName then some name else none)
        (s.parentIn sort (b.find? sort))
    else b.table t

/-- A step that declares nothing. -/
def Draft.Keeps (b b' : Draft) : Prop := ∀ sort, b'.table sort = b.table sort

section Adding

variable {b b' : Draft} {s : Statement}

/-! ### Names that are resolved -/

/-- A label that is resolved to a node stands for its number, the root's own label included. -/
theorem find?_of_node {label : String} {n : AliasNodeId} (h : b.node label = .ok n) :
    b.find? .aliasNode label = some n.index := by
  show (if label = "top" then some 0 else (b.nodeLabels.get? label).map (·.index)) = _
  unfold Draft.node at h
  split at h
  next htop =>
    cases h
    exact if_pos htop
  next htop => rw [if_neg htop, declared_eq_ok h, Option.map_some]

/-- A label that is resolved to an estimate memory stands for its number. -/
theorem find?_of_estimate {label : String} {e : EstimateId} (h : b.estimate label = .ok e) :
    b.find? .estimate label = some e.index :=
  congrArg (Option.map EstimateId.index) (declared_eq_ok h)

/-- A name that is resolved to a loop stands for its number. -/
theorem find?_of_loop {name : String} {l : LoopId} (h : b.loop name = .ok l) :
    b.find? .loop name = some l.index :=
  congrArg (Option.map LoopId.index) (declared_eq_ok h)

/-- A new label stands for its item. -/
theorem get?_insert {α : Type} {m : OrderedMap String α} {label : String}
    (hnew : m.get? label = none) (a : α) (index : α → Nat) (n : String) :
    ((m.insert label a).get? n).map index
      = ((m.get? n).map index).or (if n = label then some (index a) else none) := by
  by_cases h : n = label
  · subst h
    simp [OrderedMap.get?_insert_self, hnew]
  · rw [OrderedMap.get?_insert_of_ne m a h, if_neg h, Option.or_none]

/-- What is read off the entries of an array after a push: the new entry at the end, the old ones
below. -/
theorem map_getElem?_push {α β : Type} (as : Array α) (a : α) (g : α → β) (i : Nat) :
    (as.push a)[i]?.map g = if i = as.size then some (g a) else as[i]?.map g := by
  rw [Array.getElem?_push]
  split <;> rfl

/-- The parent that an entry records, after another entry is pushed. -/
theorem parent_push {α β : Type} (as : Array α) (a : α) (parent : α → Option β) (index : β → Nat)
    (i : Nat) : ((as.push a)[i]?.bind parent).map index
      = if i = as.size then (parent a).map index else (as[i]?.bind parent).map index := by
  rw [Array.getElem?_push]
  split <;> rfl

/-- A value that is added is found under its name unless an earlier one bears it. -/
theorem findValue?_addValue (f : Function) (v : Value) (n : String) :
    ((f.addValue v).findValue? n).map (·.index)
      = ((f.findValue? n).map (·.index)).or (if n = v.name then some f.values.size else none) := by
  unfold Function.findValue? Function.addValue
  rw [Array.findIdx?_push, Option.map_or, Option.map_or]
  congr 1
  by_cases h : n = v.name
  · simp [h]
  · simp [h, Ne.symm h]

/-! ### Items that are added -/

/-- Adding an alias node adds one item to the table of nodes, inside the given parent, and leaves
the other tables. -/
theorem table_addNode {t : AliasTree} {parent n : AliasNodeId} {kind : AliasNodeKind}
    {label : String} (h : b.tree.addNode parent kind = .ok (t, n))
    (hnew : b.nodeLabels.get? label = none) (sort : Declared) :
    Draft.table { b.withTree t with nodeLabels := b.nodeLabels.insert label n } sort
      = if sort = .aliasNode then (b.table .aliasNode).add label none (some parent.index)
        else b.table sort := by
  obtain ⟨-, -, rfl, hnodes, hestimates, -⟩ := AliasTree.addNode_eq_ok h
  cases sort with
  | aliasNode =>
    refine Table.ext ?_ (funext fun n => ?_) (funext fun i => ?_) (funext fun i => ?_)
    · exact (congrArg Array.size hnodes).trans (Array.size_push _)
    · show (if n = "top" then some 0 else _)
        = (if n = "top" then some 0 else _).or (if n = label then some b.tree.nodes.size else none)
      -- The root has no label of its own in the draft: its name is answered before the labels are
      -- asked.
      by_cases hn : n = "top"
      · rw [if_pos hn, if_pos hn, Option.some_or]
      · rw [if_neg hn, if_neg hn]
        exact get?_insert hnew _ _ n
    · exact (ite_self none).symm
    · show (t.nodes[i]?.bind (·.parent)).map (·.index) = _
      rw [hnodes]
      exact parent_push _ _ _ _ i
  | estimate =>
    refine Table.ext (congrArg Array.size hestimates) rfl rfl (funext fun i => ?_)
    show (t.estimates[i]?.bind (·.parent)).map (·.index) = _
    rw [hestimates]
    rfl
  | _ => rfl

/-- Adding an estimate memory adds one item to the table of estimate memories and leaves the other
tables: nodes get another estimate memory but keep their parents. -/
theorem table_addEstimate {t : AliasTree} {node : AliasNodeId} {pointers : List ValueId}
    {size : Option Nat} {offset : Nat} {parent : Option EstimateId} {e : EstimateId}
    {label : String} (h : b.tree.addEstimate node pointers size offset parent = .ok (t, e))
    (hnew : b.estimateLabels.get? label = none) (sort : Declared) :
    Draft.table { b.withTree t with estimateLabels := b.estimateLabels.insert label e } sort
      = if sort = .estimate then (b.table .estimate).add label none (parent.map (·.index))
        else b.table sort := by
  obtain ⟨-, -, rfl, hnodes, -, front, others, -, hestimates⟩ := AliasTree.addEstimate_eq_ok h
  cases sort with
  | estimate =>
    refine Table.ext ?_ (funext fun n => ?_) (funext fun i => ?_) (funext fun i => ?_)
    · exact (congrArg Array.size hestimates).trans (Array.size_push _)
    · exact get?_insert hnew _ _ n
    · exact (ite_self none).symm
    · show (t.estimates[i]?.bind (·.parent)).map (·.index) = _
      rw [hestimates]
      exact parent_push _ _ _ _ i
  | aliasNode =>
    refine Table.ext (congrArg Array.size hnodes) rfl rfl (funext fun i => ?_)
    show (t.nodes[i]?.bind (·.parent)).map (·.index) = _
    rw [hnodes]
    rfl
  | _ => rfl

/-- Adding a loop adds one item to the table of loops, under a name that may be borne already. -/
theorem table_addLoop {loops : LoopNest} {spec : LoopNest.LoopSpec} {id : LoopId}
    (h : b.function.loops.add spec = .ok (loops, id)) (sort : Declared) :
    Draft.table { b with function := { b.function with loops } } sort
      = if sort = .loop then
          (b.table .loop).add spec.name (some spec.name) (spec.parent.map (·.index))
        else b.table sort := by
  obtain ⟨l, hname, -, -, hloops, rfl, -⟩ := LoopNest.add_eq_ok h
  cases sort with
  | loop =>
    refine Table.ext ?_ (funext fun n => ?_) (funext fun i => ?_) (funext fun i => ?_)
    · exact (congrArg Array.size hloops).trans (Array.size_push _)
    · show (loops.find? n).map (·.index) = _
      rw [LoopNest.find?_add h, Option.map_or]
      congr 1
      split <;> rfl
    · show loops.loops[i]?.map (·.name) = _
      rw [hloops, map_getElem?_push, hname]
      rfl
    · exact LoopNest.parent_add h i
  | _ => rfl

/-! ### Declarations -/

/-- The parent that a statement gives is known, and it is the item `parent`. -/
structure Draft.Places (b : Draft) (sort : Declared) (s : Statement) (parent : Option Nat) :
    Prop where
  known : ∀ p, s.nameAttr? "parent" = some p → ∃ i, b.find? sort p = some i
  parentIn : s.parentIn sort (b.find? sort) = parent

/-- `index` is the number of an item that is looked up. -/
theorem Draft.Places.of_places {sort : Declared} {α : Type}
    {find : String → Except StatementError α} {outermost parent : α} (index : α → Option Nat)
    (hnests : sort.nests = true) (houtermost : index outermost = sort.outermost)
    (hfind : ∀ p a, find p = .ok a → ∃ i, b.find? sort p = some i ∧ index a = some i)
    (h : s.Places find outermost parent) : b.Places sort s (index parent) := by
  unfold Statement.Places at h
  cases hattr : s.nameAttr? "parent" with
  | none =>
    rw [hattr] at h
    -- Without the attribute the statement stands for the default, whose number the sort gives.
    obtain rfl : parent = outermost := h
    refine ⟨fun p hp => ?_, (Statement.parentIn_of_none hattr hnests _).trans houtermost.symm⟩
    rw [hattr] at hp
    cases hp
  | some p =>
    rw [hattr] at h
    obtain ⟨i, hi, hindex⟩ := hfind p parent h
    refine ⟨fun p' hp' => ?_, ?_⟩
    · obtain rfl := Option.some.inj (hattr.symm.trans hp')
      exact ⟨i, hi⟩
    · rw [Statement.parentIn_of_some hattr hnests, hi, hindex]

/-- What an accepted declaration adds to the function, it declares in the tables. -/
theorem Draft.Adds.declares {sort : Declared} {name : String} (hname : s.name? 0 = some name)
    (h : b.Adds s name sort b') : b.Declares sort s name b' := by
  cases h with
  | value v heq hnew =>
    -- A value or an instruction has no parent; only its own table grows, by one entry.
    subst heq
    refine ⟨hname, fun _ => congrArg (Option.map ValueId.index) hnew,
      fun h => absurd h Bool.false_ne_true, fun t => ?_⟩
    cases t with
    | value =>
      refine Table.ext (Array.size_push _) (funext fun n => ?_) (funext fun i => ?_)
        (funext fun i => ?_)
      · exact findValue?_addValue _ _ n
      · exact map_getElem?_push _ _ _ i
      · exact (ite_self none).symm
    | _ => rfl
  | inst block op hnew =>
    refine ⟨hname, fun _ => congrArg (Option.map InstId.index) hnew,
      fun h => absurd h Bool.false_ne_true, fun t => ?_⟩
    cases t with
    | instruction =>
      refine Table.ext (Array.size_push _) (funext fun n => ?_) (funext fun i => ?_)
        (funext fun i => ?_)
      · exact get?_insert hnew _ _ n
      · exact (ite_self none).symm
      · exact (ite_self none).symm
    | _ => rfl
  | @node t parent n kind htop hnew hparent h =>
    -- The last three sorts lie in one another, so the parent must be known as well.
    have hplace : b.Places .aliasNode s (some parent.index) :=
      .of_places (fun n => some n.index) rfl rfl
        (fun p n hn => ⟨n.index, find?_of_node hn, rfl⟩) hparent
    refine ⟨hname, fun _ => ?_, fun _ => hplace.known, ?_⟩
    · show (if name = "top" then _ else _) = none
      rw [if_neg htop, hnew, Option.map_none]
    · rw [hplace.parentIn]
      exact table_addNode h hnew
  | @estimate t node pointers size offset parent e hnew _ hparent h =>
    have hplace : b.Places .estimate s (parent.map (·.index)) := by
      refine .of_places (Option.map EstimateId.index) rfl rfl (fun p o ho => ?_) hparent
      obtain ⟨e, he, rfl⟩ := map_eq_ok ho
      exact ⟨e.index, find?_of_estimate he, rfl⟩
    refine ⟨hname, fun _ => congrArg (Option.map EstimateId.index) hnew,
      fun _ => hplace.known, ?_⟩
    rw [hplace.parentIn]
    exact table_addEstimate h hnew
  | @loop loops spec id heq hparent h =>
    subst heq
    have hplace : b.Places .loop s (spec.parent.map (·.index)) := by
      refine .of_places (Option.map LoopId.index) rfl rfl (fun p o ho => ?_) hparent
      obtain ⟨l, hl, rfl⟩ := map_eq_ok ho
      exact ⟨l.index, find?_of_loop hl, rfl⟩
    refine ⟨hname, fun hne => absurd rfl hne, fun _ => hplace.known, ?_⟩
    rw [hplace.parentIn]
    exact table_addLoop h

/-- An accepted declaration has a name at its first place and declares it. -/
theorem Draft.Declaration.declares {sort : Declared} (h : b.Declaration s sort b') :
    ∃ name, b.Declares sort s name b' := by
  obtain ⟨name, hname, h⟩ := h
  exact ⟨name, h.declares hname⟩

/-! ### Other statements -/

/-- Facts about instructions and blocks declare nothing. -/
theorem Draft.Annotates.keeps (h : b.Annotates b') : b.Keeps b' := by
  obtain ⟨live, reach, dependences, modRefs, rfl⟩ := h
  intro sort
  cases sort <;> rfl

/-- The facts of a loop declare nothing. -/
theorem addAccess_keeps (s : Statement) : Ensures b.Keeps (b.addAccess s) := by
  refine .bind fun name _ => .bind fun loop _ => .bind fun explicit _ => .bind fun uses _ => ?_
  refine .bind fun defs _ => .bind fun mayDefs _ => .bind fun unknowns _ => ?_
  refine .bind fun addresses _ => .ok fun sort => ?_
  cases sort <;> rfl

/-- An instruction of unknown effect is entered in a node and declares nothing. -/
theorem addUnknown_keeps (s : Statement) : Ensures b.Keeps (b.addUnknown s) := by
  refine .bind fun label _ => .bind fun inst _ => .bind fun name _ => .bind fun node _ => ?_
  refine .bind fun t ht => .ok ?_
  obtain ⟨-, hnodes, hestimates, -⟩ := AliasTree.addUnknown_eq_ok (mapError_eq_ok ht)
  intro sort
  -- The node is rewritten in its place, so both tables of the alias tree have to be compared entry
  -- by entry.
  cases sort with
  | aliasNode =>
    refine Table.ext (congrArg Array.size hnodes) rfl rfl (funext fun i => ?_)
    show (t.nodes[i]?.bind (·.parent)).map (·.index) = _
    rw [hnodes]
    rfl
  | estimate =>
    refine Table.ext (congrArg Array.size hestimates) rfl rfl (funext fun i => ?_)
    show (t.estimates[i]?.bind (·.parent)).map (·.index) = _
    rw [hestimates]
    rfl
  | _ => rfl

/-- A statement that is accepted adds one item of the sort that its keyword declares, and no item
if its keyword declares none. -/
theorem step_declares (s : Statement) : Ensures (fun b' =>
      (∃ sort : Declared, s.keyword = sort.keyword ∧ ∃ name, b.Declares sort s name b')
      ∨ (∀ sort : Declared, s.keyword ≠ sort.keyword) ∧ b.Keeps b') (b.step s) := by
  have hkeeps {keyword : String} {x : Except StatementError Draft} (hs : s.keyword = keyword)
      (hne : ∀ sort ∈ Declared.all, keyword ≠ sort.keyword) (h : Ensures b.Keeps x) :
      Ensures (fun b' =>
        (∃ sort : Declared, s.keyword = sort.keyword ∧ ∃ name, b.Declares sort s name b')
        ∨ (∀ sort : Declared, s.keyword ≠ sort.keyword) ∧ b.Keeps b') x :=
    h.mono fun b' hb' => .inr ⟨fun sort => hs ▸ hne sort sort.mem_all, hb'⟩
  unfold Draft.step
  split
  next h => exact (addValue_adds s).mono fun _ hb' => .inl ⟨.value, h, hb'.declares⟩
  next h => exact (addInst_adds s).mono fun _ hb' => .inl ⟨.instruction, h, hb'.declares⟩
  next h => exact (addAlias_adds s).mono fun _ hb' => .inl ⟨.aliasNode, h, hb'.declares⟩
  next h => exact (addEstimate_adds s).mono fun _ hb' => .inl ⟨.estimate, h, hb'.declares⟩
  next h => exact hkeeps h (by decide) (addUnknown_keeps s)
  next h => exact (addLoop_adds s).mono fun _ hb' => .inl ⟨.loop, h, hb'.declares⟩
  next h => exact hkeeps h (by decide) (addAccess_keeps s)
  next h => exact hkeeps h (by decide) ((addLive_annotates s).mono fun _ h => h.keeps)
  next h => exact hkeeps h (by decide) ((setReach_annotates s).mono fun _ h => h.keeps)
  next h => exact hkeeps h (by decide) ((setDependence_annotates s).mono fun _ h => h.keeps)
  next h => exact hkeeps h (by decide) ((setModRef_annotates s).mono fun _ h => h.keeps)
  next => exact .error

end Adding

end Facts

end Privatization
