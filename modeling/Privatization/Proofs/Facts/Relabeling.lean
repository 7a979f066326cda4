import Privatization.Facts.Loader
import Privatization.Proofs.Collection.Carries
import Mathlib.Data.Set.Function

/-!
# Statements with other labels

Statements name instructions, alias nodes and estimate memories by labels, which the functions they
describe do not keep. `Relabeling.statement` puts other labels in their place, where they are
declared and wherever they are referred to. `Draft.Relabeled` relates a draft to what it is with the
other labels: the instructions may differ, all else in the function is the same.
-/

namespace Privatization

namespace Facts

/-! ## Putting other labels in -/

namespace Datum

/-- Another name in place of a name. -/
def mapName (g : String → String) : Datum → Datum
  | name label => .name (g label)
  | d => d

/-- Another name in place of a name or of each name in a list. -/
def mapNames (g : String → String) : Datum → Datum
  | list ds => .list (ds.map (mapName g))
  | d => d.mapName g

variable (g : String → String) (d : Datum)

@[simp] theorem name?_mapName : (d.mapName g).name? = d.name?.map g := by
  cases d <;> rfl

@[simp] theorem items_mapNames : (d.mapNames g).items = d.items.map (mapName g) := by
  cases d <;> rfl

end Datum

namespace Statement

variable (s : Statement) (g : String → String) (h : Datum → Datum) {i j : Nat} {key key' : String}

/-- Another name in a positional place. -/
def mapAt (i : Nat) : Statement := { s with positional := s.positional.modify i (Datum.mapName g) }

/-- Another value for an attribute. -/
def mapAttr (key : String) : Statement :=
  { s with attrs := s.attrs.map fun (k, d) => (k, if k = key then h d else d) }

@[simp] theorem attr?_mapAt : (s.mapAt g i).attr? key = s.attr? key := rfl

@[simp] theorem nameAttr?_mapAt : (s.mapAt g i).nameAttr? key = s.nameAttr? key := rfl

/-- The name read from the place is the other one, and its absence is reported alike. -/
@[simp] theorem nameAt_mapAt_self (what : String) :
    (s.mapAt g i).nameAt i what = (s.nameAt i what).map g := by
  unfold nameAt mapAt
  simp only [List.getElem?_modify_eq, Option.map_eq_map, Option.bind_map]
  cases s.positional[i]? with
  | none => rfl
  | some d => cases d <;> rfl

/-- Every other place is as it was. -/
theorem getElem?_mapAt_of_ne (hne : i ≠ j) : (s.mapAt g i).positional[j]? = s.positional[j]? := by
  unfold mapAt
  simp [hne]

theorem nameAt_mapAt_of_ne (hne : i ≠ j) (what : String) :
    (s.mapAt g i).nameAt j what = s.nameAt j what := by
  unfold nameAt
  rw [getElem?_mapAt_of_ne s g hne]
  rfl

@[simp] theorem nameAt_mapAttr (what : String) :
    (s.mapAttr h key).nameAt i what = s.nameAt i what := rfl

/-- The attribute has its other value where it is given. -/
theorem attr?_mapAttr_self : (s.mapAttr h key).attr? key = (s.attr? key).map h := by
  unfold attr? mapAttr
  -- The first attribute with the key is found, and that is the same one in both lists.
  induction s.attrs with
  | nil => rfl
  | cons p ps ih =>
    by_cases hp : p.1 = key
    · simp [hp]
    · simpa [hp] using ih

/-- Every other attribute is as it was. -/
theorem attr?_mapAttr_of_ne (hne : key ≠ key') : (s.mapAttr h key).attr? key' = s.attr? key' := by
  unfold attr? mapAttr
  induction s.attrs with
  | nil => rfl
  | cons p ps ih =>
    by_cases hp : p.1 = key'
    · simp [hp, Ne.symm hne]
    · simpa [hp] using ih

/-- A name given as an attribute is the other one. -/
theorem nameAttr?_mapAttr_self :
    (s.mapAttr (Datum.mapName g) key).nameAttr? key = (s.nameAttr? key).map g := by
  unfold nameAttr?
  rw [attr?_mapAttr_self]
  cases s.attr? key with
  | none => rfl
  | some d => exact Datum.name?_mapName g d

theorem nameAttr?_mapAttr_of_ne (hne : key ≠ key') :
    (s.mapAttr h key).nameAttr? key' = s.nameAttr? key' := by
  unfold nameAttr?
  rw [attr?_mapAttr_of_ne s h hne]

/-- The name in a positional place, if there is one. -/
def name? (i : Nat) : Option String := s.positional[i]?.bind Datum.name?

/-- A name that is read is there. -/
theorem name?_of_nameAt {s : Statement} {what name : String} (h : s.nameAt i what = .ok name) :
    s.name? i = some name := by
  unfold nameAt at h
  split at h
  next hname =>
    cases h
    exact hname
  next => cases h

/-- Whether the statement declares an instruction that the flag `readonly` says something about. -/
def takesFlag : Bool :=
  s.keyword == "inst" && (s.name? 1 == some "call" || s.name? 1 == some "opaque")

/-- Whether the flag `readonly` is given behind the label. -/
def flagged : Bool := (s.positional.drop 1).any fun d => d.name? == some "readonly"

/-- The flag is looked for in the place of the label too. -/
theorem hasFlag_readonly {s : Statement} {label : String} (h : s.name? 0 = some label) :
    s.hasFlag "readonly" = (label == "readonly" || s.flagged) := by
  unfold hasFlag flagged
  unfold name? at h
  cases hpositional : s.positional with
  | nil => simp [hpositional] at h
  | cons d ds =>
    obtain hd : d.name? = some label := by simpa [hpositional] using h
    simp [hd]

/-- A flag behind the label does not depend on the label. -/
theorem flagged_mapAt : (s.mapAt g 0).flagged = s.flagged := by
  unfold flagged mapAt
  cases s.positional <;> rfl

/-- The label of a relabeled statement is the other one. -/
theorem name?_mapAt_zero {s : Statement} {label : String} (h : s.name? 0 = some label) :
    (s.mapAt g 0).name? 0 = some (g label) := by
  unfold name? mapAt at *
  cases hpositional : s.positional with
  | nil => simp [hpositional] at h
  | cons d ds =>
    obtain hd : d.name? = some label := by simpa [hpositional] using h
    simp [hd]

end Statement

/-- Other labels for instructions, alias nodes and estimate memories. -/
structure Relabeling where
  inst : String → String
  node : String → String
  estimate : String → String

/-- The labels that the statements with a keyword declare. -/
def labels (keyword : String) (ss : List Statement) : List String :=
  (ss.filter (·.keyword = keyword)).filterMap (·.name? 0)

namespace Relabeling

variable (r : Relabeling)

/-- What stands for an alias node; the root is always `top`. -/
def nodeName (label : String) : String := if label = "top" then label else r.node label

/-- The statement with the other labels. -/
def statement (s : Statement) : Statement :=
  match s.keyword with
  | "inst" => s.mapAt r.inst 0
  | "alias" => (s.mapAt r.nodeName 0).mapAttr (.mapName r.nodeName) "parent"
  | "estimate" =>
    ((s.mapAt r.estimate 0).mapAttr (.mapName r.nodeName) "node").mapAttr
      (.mapName r.estimate) "parent"
  | "unknown" => (s.mapAt r.inst 0).mapAt r.nodeName 1
  | "access" => s.mapAttr (.mapNames r.inst) "unknowns"
  | "dep" => (s.mapAt r.inst 0).mapAt r.inst 1
  | "modref" => s.mapAt r.inst 0
  | _ => s

@[simp] theorem keyword_statement (s : Statement) : (r.statement s).keyword = s.keyword := by
  unfold statement
  split <;> rfl

/-- The flag `readonly` is given to the statement with its other label if it was given before. A
label that is this word counts as the flag. -/
def Keeps (s : Statement) : Prop :=
  s.takesFlag = true → s.flagged = false →
    ∀ label ∈ s.name? 0, r.inst label = "readonly" ↔ label = "readonly"

instance (s : Statement) : Decidable (r.Keeps s) := by
  unfold Keeps
  infer_instance

/-- Different labels stay different, and no alias node is called as the root is. -/
structure Admissible (ss : List Statement) : Prop where
  inst : Set.InjOn r.inst {l | l ∈ labels "inst" ss}
  node : Set.InjOn r.node {l | l ∈ labels "alias" ss}
  estimate : Set.InjOn r.estimate {l | l ∈ labels "estimate" ss}
  not_top : ∀ l ∈ labels "alias" ss, r.node l ≠ "top"

variable {r} {ss : List Statement}

/-- No declared node is called as the root is. -/
theorem Admissible.nodeName_ne_top (h : r.Admissible ss) {label : String}
    (hmem : label ∈ labels "alias" ss) (hne : label ≠ "top") : r.nodeName label ≠ "top" := by
  rw [nodeName, if_neg hne]
  exact h.not_top label hmem

/-- Different declared nodes are called differently. -/
theorem Admissible.nodeName (h : r.Admissible ss) :
    Set.InjOn r.nodeName {l | l ∈ labels "alias" ss ∧ l ≠ "top"} := by
  rintro l ⟨hl, hne⟩ l' ⟨hl', hne'⟩ heq
  rw [Relabeling.nodeName, Relabeling.nodeName, if_neg hne, if_neg hne'] at heq
  exact h.node hl hl' heq

end Relabeling

/-- The label of a statement is among those its keyword declares. -/
theorem mem_labels {ss : List Statement} {s : Statement} {keyword what label : String} (hs : s ∈ ss)
    (hkeyword : s.keyword = keyword) (hlabel : s.nameAt 0 what = .ok label) :
    label ∈ labels keyword ss := by
  refine List.mem_filterMap.mpr ⟨s, List.mem_filter.mpr ⟨hs, decide_eq_true hkeyword⟩, ?_⟩
  exact Statement.name?_of_nameAt hlabel

/-! ## Drafts with other labels -/

/-- What a draft has of the labels: the labels, and the instructions that a label may be
a flag of. -/
structure Binders where
  instructions : Array Instruction
  insts : OrderedMap String InstId
  nodes : OrderedMap String AliasNodeId
  estimates : OrderedMap String EstimateId

/-- The draft with other binders. -/
def Draft.under (b : Draft) (x : Binders) : Draft :=
  { function := { b.function with instructions := x.instructions }
    instLabels := x.insts
    nodeLabels := x.nodes
    estimateLabels := x.estimates }

/-- The second map has the same entries in the same order under other labels. -/
structure Relabels {α : Type} (g : String → String) (declared : Set String)
    (m m' : OrderedMap String α) : Prop where
  toList : m'.toList = m.toList.map (Prod.map g id)
  declared : ∀ l ∈ m.keys, l ∈ declared

namespace Relabels

variable {α : Type} {g : String → String} {declared : Set String} {m m' : OrderedMap String α}
  {l : String} {a : α}

/-- What is found under a label is found under the other one. -/
theorem get? (h : Relabels g declared m m') (hl : m.get? l = some a) : m'.get? (g l) = some a := by
  rw [← OrderedMap.mem_toList_iff] at hl ⊢
  rw [h.toList]
  exact List.mem_map.mpr ⟨(l, a), hl, rfl⟩

/-- The labels are the other ones, in the same order. -/
theorem keys (h : Relabels g declared m m') : m'.keys = m.keys.map g := by
  unfold OrderedMap.keys
  rw [h.toList, List.map_map, List.map_map]
  rfl

/-- A label that is new is new under its other name. -/
theorem not_mem_keys (h : Relabels g declared m m') (hinj : Set.InjOn g declared)
    (hl : l ∈ declared) (hnew : l ∉ m.keys) : g l ∉ m'.keys := by
  rw [h.keys]
  intro hmem
  obtain ⟨l', hl', heq⟩ := List.mem_map.mp hmem
  obtain rfl : l' = l := hinj (h.declared l' hl') hl heq
  exact hnew hl'

/-- A declaration under a new label adds the same entry to both. -/
theorem insert (h : Relabels g declared m m') (hinj : Set.InjOn g declared)
    (hl : l ∈ declared) (hnew : l ∉ m.keys) :
    Relabels g declared (m.insert l a) (m'.insert (g l) a) := by
  constructor
  case toList =>
    rw [OrderedMap.toList_insert_of_new a hnew,
      OrderedMap.toList_insert_of_new a (h.not_mem_keys hinj hl hnew), h.toList, List.map_append]
    rfl
  case declared =>
    -- Every label is the new one or was declared before.
    intro l' hl'
    rcases OrderedMap.mem_keys_insert.mp hl' with rfl | hl'
    · exact hl
    · exact h.declared l' hl'

/-- What is declared under a label is declared under the other one. -/
theorem declared_carries (h : Relabels g declared m m') (sort : Declared) :
    Carries Eq (Draft.declared sort l (m.get? l)) (Draft.declared sort (g l) (m'.get? (g l))) := by
  intro a ha
  refine ⟨a, ?_, rfl⟩
  unfold Draft.declared at ha
  split at ha
  next hget =>
    rw [h.get? hget]
    exact ha
  next => cases ha

end Relabels

/-- The binders are those of the draft with other labels. The instructions are the same if and only
if every flag was `kept`. -/
structure Binders.Match (r : Relabeling) (ss : List Statement) (kept : Prop) (b : Draft)
    (x : Binders) : Prop where
  insts : Relabels r.inst {l | l ∈ labels "inst" ss} b.instLabels x.insts
  nodes : Relabels r.nodeName {l | l ∈ labels "alias" ss ∧ l ≠ "top"} b.nodeLabels x.nodes
  estimates : Relabels r.estimate {l | l ∈ labels "estimate" ss} b.estimateLabels x.estimates
  size : x.instructions.size = b.function.instructions.size
  same : x.instructions = b.function.instructions ↔ kept

/-- A draft and what it is with other labels. -/
def Draft.Relabeled (r : Relabeling) (ss : List Statement) (kept : Prop) (b b' : Draft) : Prop :=
  ∃ x, b' = b.under x ∧ x.Match r ss kept b

section Steps

variable {r : Relabeling} {ss : List Statement} {kept : Prop} {b : Draft} {x : Binders}
  {s : Statement}

namespace Binders.Match

/-- An instruction is found under its other label. -/
theorem inst (h : x.Match r ss kept b) (label : String) :
    Carries Eq (b.inst label) ((b.under x).inst (r.inst label)) :=
  h.insts.declared_carries .instruction

/-- Memory is found under its new label. -/
theorem estimate (h : x.Match r ss kept b) (label : String) :
    Carries Eq (b.estimate label) ((b.under x).estimate (r.estimate label)) :=
  h.estimates.declared_carries .estimate

/-- A node is found under its other label, and the root as the root. -/
theorem node (h : x.Match r ss kept b) (hr : r.Admissible ss) (label : String) :
    Carries Eq (b.node label) ((b.under x).node (r.nodeName label)) := by
  unfold Draft.node
  by_cases htop : label = "top"
  · rw [if_pos htop, if_pos (by rw [Relabeling.nodeName, if_pos htop, htop])]
    exact .ok rfl
  · rw [if_neg htop]
    intro id hid
    -- Only a declared label is found, and no declared label becomes `top`.
    have hmem : label ∈ b.nodeLabels.keys := by
      unfold Draft.declared at hid
      split at hid
      next hget => exact OrderedMap.mem_keys_iff.mpr ⟨_, hget⟩
      next => cases hid
    rw [if_neg (hr.nodeName_ne_top (h.nodes.declared label hmem).1 htop)]
    exact h.nodes.declared_carries .aliasNode id hid

end Binders.Match

end Steps

end Facts

end Privatization
