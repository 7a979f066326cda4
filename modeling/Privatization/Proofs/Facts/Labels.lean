import Privatization.Proofs.Facts.Relabeling
import Mathlib.Logic.Equiv.Basic

/-!
# Labels are read as flags

Statements that are accepted are accepted with other labels too, and describe the same functions but
for one thing: an instruction statement is searched for the flag `readonly` from its label on, so a
call or an opaque instruction changes when it gets or loses that word as its label (`load_relabel`).
One statement after the other is taken with its old and its new labels, on drafts that are related.
-/

namespace Privatization

namespace Facts

section Steps

variable {r : Relabeling} {ss : List Statement} {kept : Prop} {b : Draft} {x : Binders}
  {s : Statement}

/-! ### Statements without labels -/

/-- A value statement has no label. It does the same to drafts under other labels. -/
theorem addValue_relabeled (h : x.Match r ss kept b) :
    Carries (Draft.Relabeled r ss kept) (b.addValue s) ((b.under x).addValue s) := by
  refine .after _ fun name _ => ?_
  refine .guard (fun _ => .error) fun hnew => ⟨hnew, ?_⟩
  refine .after (b.valueKind s) fun kind _ => ?_
  refine .after _ fun source _ => ?_
  exact .ok ⟨x, rfl, { h with }⟩

/-- A loop statement has no label: loops are found by their names. -/
theorem addLoop_relabeled (h : x.Match r ss kept b) :
    Carries (Draft.Relabeled r ss kept) (b.addLoop s) ((b.under x).addLoop s) := by
  refine .after _ fun name _ => ?_
  extract_lets _ rest _ rest'
  have hrest (parent : Option LoopId) :
      Carries (Draft.Relabeled r ss kept) (rest parent) (rest' parent) := by
    refine .after _ fun data _ => .after _ fun blocks _ => .after _ fun start _ => ?_
    refine .after _ fun header _ => .after _ fun latch _ => .after _ fun exit _ => ?_
    exact .after _ fun loops _ => .ok ⟨x, rfl, { h with }⟩
  cases s.nameAttr? "parent" with
  | none => exact hrest none
  | some parent => exact .after _ fun parent _ => hrest parent

theorem addLive_relabeled (h : x.Match r ss kept b) :
    Carries (Draft.Relabeled r ss kept) (b.addLive s) ((b.under x).addLive s) := by
  refine .after _ fun name _ => .after _ fun loop _ => ?_
  exact .after (List.mapM b.location _) fun locations _ => .ok ⟨x, rfl, { h with }⟩

/-- A reach statement is about a node by its number, and about values by their names. -/
theorem setReach_relabeled (h : x.Match r ss kept b) :
    Carries (Draft.Relabeled r ss kept) (b.setReach s) ((b.under x).setReach s) := by
  unfold Draft.setReach
  extract_lets _ rest _ rest'
  have hrest (node : Nat) : Carries (Draft.Relabeled r ss kept) (rest node) (rest' node) := by
    refine .after (b.locations s "must") fun must _ => .after (b.locations s "may") fun may _ => ?_
    exact .ok ⟨x, rfl, { h with }⟩
  cases s.positional[0]? with
  | none => exact .error
  | some d => exact .after _ fun node _ => hrest node

/-! ### Statements that refer to labels -/

/-- An unknown access refers to an instruction and a node, and both are found under the labels they
have now. -/
theorem addUnknown_relabeled (h : x.Match r ss kept b) (hr : r.Admissible ss) :
    Carries (Draft.Relabeled r ss kept) (b.addUnknown s)
      ((b.under x).addUnknown ((s.mapAt r.inst 0).mapAt r.nodeName 1)) := by
  unfold Draft.addUnknown
  rw [Statement.nameAt_mapAt_of_ne _ _ (by decide), Statement.nameAt_mapAt_self,
    Statement.nameAt_mapAt_self, Statement.nameAt_mapAt_of_ne _ _ (by decide)]
  refine .image _ _ fun label _ => .along (h.inst label) fun inst => ?_
  refine .image _ _ fun label _ => .along (h.node hr label) fun node => ?_
  exact .after _ fun t _ => .ok ⟨x, rfl, { h with }⟩

/-- A dependence refers to two instructions. -/
theorem setDependence_relabeled (h : x.Match r ss kept b) :
    Carries (Draft.Relabeled r ss kept) (b.setDependence s)
      ((b.under x).setDependence ((s.mapAt r.inst 0).mapAt r.inst 1)) := by
  unfold Draft.setDependence
  rw [Statement.nameAt_mapAt_of_ne _ _ (by decide), Statement.nameAt_mapAt_self,
    Statement.nameAt_mapAt_self, Statement.nameAt_mapAt_of_ne _ _ (by decide),
    Statement.nameAt_mapAt_of_ne _ _ (by decide), Statement.nameAt_mapAt_of_ne _ _ (by decide)]
  refine .image _ _ fun label _ => .along (h.inst label) fun src => ?_
  refine .image _ _ fun label _ => .along (h.inst label) fun dst => ?_
  refine .after _ fun word _ => ?_
  extract_lets _ rest _ rest'
  have hrest (kind : DependenceKind) :
      Carries (Draft.Relabeled r ss kept) (rest kind) (rest' kind) := by
    refine .after _ fun directions _ => .after _ fun distances _ => ?_
    exact .ok ⟨x, rfl, { h with }⟩
  split
  · exact hrest _
  · exact hrest _
  · exact hrest _
  · exact hrest _
  · exact .error

/-- A mod/ref answer refers to one. -/
theorem setModRef_relabeled (h : x.Match r ss kept b) :
    Carries (Draft.Relabeled r ss kept) (b.setModRef s)
      ((b.under x).setModRef (s.mapAt r.inst 0)) := by
  unfold Draft.setModRef
  rw [Statement.nameAt_mapAt_self, Statement.getElem?_mapAt_of_ne _ _ (by decide),
    Statement.nameAt_mapAt_of_ne _ _ (by decide)]
  refine .image _ _ fun label _ => .along (h.inst label) fun inst => ?_
  extract_lets _ rest _ rest'
  have hrest (loc : MemoryLocation) : Carries (Draft.Relabeled r ss kept) (rest loc) (rest' loc) := by
    refine .after _ fun word _ => ?_
    cases ModRef.ofString? word with
    | none => exact .error
    | some answer => exact .ok ⟨x, rfl, { h with }⟩
  cases s.positional[1]? with
  | none => exact .error
  | some d => exact .after _ fun loc _ => hrest loc

/-- Locations name values, so they are read from other attributes as before. -/
theorem locations_mapAttr {h : Datum → Datum} {key key' : String} (hne : key ≠ key') :
    (b.under x).locations (s.mapAttr h key) key' = b.locations s key' := by
  unfold Draft.locations
  rw [Statement.attr?_mapAttr_of_ne s h hne]
  rfl

/-- Facts about the accesses of a loop refer to the instructions of its unknown accesses. -/
theorem addAccess_relabeled (h : x.Match r ss kept b) :
    Carries (Draft.Relabeled r ss kept) (b.addAccess s)
      ((b.under x).addAccess (s.mapAttr (.mapNames r.inst) "unknowns")) := by
  have hitems : ((s.mapAttr (.mapNames r.inst) "unknowns").attr? "unknowns").elim [] Datum.items
      = ((s.attr? "unknowns").elim [] Datum.items).map (Datum.mapName r.inst) := by
    rw [Statement.attr?_mapAttr_self]
    cases s.attr? "unknowns" with
    | none => rfl
    | some d => exact Datum.items_mapNames r.inst d
  unfold Draft.addAccess
  rw [hitems, Statement.nameAt_mapAttr, Statement.attr?_mapAttr_of_ne _ _ (by decide),
    locations_mapAttr (by decide), locations_mapAttr (by decide), locations_mapAttr (by decide),
    locations_mapAttr (by decide)]
  refine .after _ fun name _ => .after _ fun loop _ => ?_
  refine .after _ fun explicit _ => .after _ fun uses _ => ?_
  refine .after _ fun defs _ => .after _ fun mayDefs _ => ?_
  refine .along (.mapM_map (fun d => ?_) _) fun unknowns => ?_
  · -- A name is a label. Anything else is refused on both sides.
    cases d with
    | name label => exact h.inst label
    | _ => exact .error
  exact .after _ fun addresses _ => .ok ⟨x, rfl, { h with }⟩

/-! ### Statements that declare labels -/

/-- A node is declared under its new label, which is no more taken than the old one was. -/
theorem addAlias_relabeled (h : x.Match r ss kept b) (hr : r.Admissible ss) (hs : s ∈ ss)
    (hkeyword : s.keyword = "alias") :
    Carries (Draft.Relabeled r ss kept) (b.addAlias s) ((b.under x).addAlias
      ((s.mapAt r.nodeName 0).mapAttr (.mapName r.nodeName) "parent")) := by
  unfold Draft.addAlias
  rw [Statement.nameAt_mapAttr, Statement.nameAt_mapAt_self, Statement.nameAttr?_mapAttr_self,
    Statement.nameAttr?_mapAttr_of_ne _ _ (by decide), Statement.nameAttr?_mapAt,
    Statement.nameAttr?_mapAt]
  -- The new label is read where the old one stood, and the parent where the old parent stood.
  refine .image _ _ fun label hlabel => ?_
  extract_lets atParent rest atParent' rest'
  refine .guard (fun _ => .error) fun hdup => ?_
  have hnew : label ≠ "top" ∧ label ∉ b.nodeLabels.keys := by
    simpa [OrderedMap.contains] using hdup
  have hmem : label ∈ {l | l ∈ labels "alias" ss ∧ l ≠ "top"} :=
    ⟨mem_labels hs hkeyword hlabel, hnew.1⟩
  constructor
  · -- The label in its place is new as well, and not that of the root.
    have htop := hr.nodeName_ne_top hmem.1 hnew.1
    have hkeys := h.nodes.not_mem_keys hr.nodeName hmem hnew.2
    show ¬ (decide (r.nodeName label = "top") || x.nodes.contains (r.nodeName label)) = true
    simpa [OrderedMap.contains] using And.intro htop hkeys
  have hparent (parent : AliasNodeId) :
      Carries (Draft.Relabeled r ss kept) (atParent parent) (atParent' parent) := by
    unfold atParent atParent'
    extract_lets atKind atKind'
    have hkind (kind : AliasNodeKind) :
        Carries (Draft.Relabeled r ss kept) (atKind kind) (atKind' kind) := by
      refine .after _ fun (t, id) _ => ?_
      exact .ok ⟨{ x with nodes := x.nodes.insert (r.nodeName label) id }, rfl,
        { h with nodes := h.nodes.insert hr.nodeName hmem hnew.2 }⟩
    split
    · exact hkind _
    · exact hkind _
    · exact hkind _
    · exact .error
  unfold rest rest'
  cases s.nameAttr? "parent" with
  | none => exact hparent AliasTree.top
  | some parent => exact .along (h.node hr parent) hparent

/-- Memory is declared under its new label, in the node and the memory found under theirs. -/
theorem addEstimate_relabeled (h : x.Match r ss kept b) (hr : r.Admissible ss) (hs : s ∈ ss)
    (hkeyword : s.keyword = "estimate") :
    Carries (Draft.Relabeled r ss kept) (b.addEstimate s) ((b.under x).addEstimate
      (((s.mapAt r.estimate 0).mapAttr (.mapName r.nodeName) "node").mapAttr
        (.mapName r.estimate) "parent")) := by
  generalize hs' : ((s.mapAt r.estimate 0).mapAttr (.mapName r.nodeName) "node").mapAttr
    (.mapName r.estimate) "parent" = s'
  have hlabel : s'.nameAt 0 "estimate memory" = (s.nameAt 0 "estimate memory").map r.estimate := by
    rw [← hs', Statement.nameAt_mapAttr, Statement.nameAt_mapAttr, Statement.nameAt_mapAt_self]
  have hnode : s'.nameAttr? "node" = (s.nameAttr? "node").map r.nodeName := by
    rw [← hs', Statement.nameAttr?_mapAttr_of_ne _ _ (by decide), Statement.nameAttr?_mapAttr_self,
      Statement.nameAttr?_mapAt]
  have hparent : s'.nameAttr? "parent" = (s.nameAttr? "parent").map r.estimate := by
    rw [← hs', Statement.nameAttr?_mapAttr_self, Statement.nameAttr?_mapAttr_of_ne _ _ (by decide),
      Statement.nameAttr?_mapAt]
  have hattr? (key : String) (hn : "node" ≠ key) (hp : "parent" ≠ key) :
      s'.attr? key = s.attr? key := by
    rw [← hs', Statement.attr?_mapAttr_of_ne _ _ hp, Statement.attr?_mapAttr_of_ne _ _ hn,
      Statement.attr?_mapAt]
  have hattr : s'.attr "ptrs" = s.attr "ptrs" := by
    unfold Statement.attr
    rw [hattr? "ptrs" (by decide) (by decide), ← hs']
    rfl
  unfold Draft.addEstimate
  rw [hlabel, hnode, hattr]
  -- From here on, the two runs differ in the label and the names of node and parent alone.
  refine .image _ _ fun label hlabel => ?_
  extract_lets atNode rest atNode' rest'
  refine .guard (fun _ => .error) fun hdup => ?_
  have hnew : label ∉ b.estimateLabels.keys := by simpa [OrderedMap.contains] using hdup
  have hmem := mem_labels hs hkeyword hlabel
  constructor
  · show ¬ x.estimates.contains (r.estimate label) = true
    simpa [OrderedMap.contains] using h.estimates.not_mem_keys hr.estimate hmem hnew
  have hat (node : AliasNodeId) :
      Carries (Draft.Relabeled r ss kept) (atNode node) (atNode' node) := by
    refine .after _ fun data _ => .after _ fun pointers _ => ?_
    extract_lets atSize atSize'
    have hsize (size : Option Nat) :
        Carries (Draft.Relabeled r ss kept) (atSize size) (atSize' size) := by
      unfold atSize atSize'
      extract_lets atOffset atOffset'
      have hoffset (offset : Nat) :
          Carries (Draft.Relabeled r ss kept) (atOffset offset) (atOffset' offset) := by
        unfold atOffset atOffset'
        extract_lets atParent atParent'
        have hbuilt (parent : Option EstimateId) :
            Carries (Draft.Relabeled r ss kept) (atParent parent) (atParent' parent) := by
          refine .after _ fun (t, id) _ => ?_
          exact .ok ⟨{ x with estimates := x.estimates.insert (r.estimate label) id }, rfl,
            { h with estimates := h.estimates.insert hr.estimate hmem hnew }⟩
        rw [hparent]
        cases s.nameAttr? "parent" with
        | none => exact hbuilt none
        | some parent => exact .along ((h.estimate parent).map some) hbuilt
      rw [hattr? "offset" (by decide) (by decide)]
      cases s.attr? "offset" with
      | none => exact hoffset 0
      | some d => exact .after _ fun offset _ => hoffset offset
    rw [hattr? "size" (by decide) (by decide)]
    split
    · exact hsize none
    · exact hsize none
    · exact .after _ fun size _ => hsize size
  unfold rest rest'
  cases s.nameAttr? "node" with
  | none => exact .error
  | some name => exact .along (h.node hr name) hat

/-- Of a call or an opaque instruction, another label leaves the flag as it was exactly if it is
kept. -/
theorem hasFlag_mapAt_iff {label : String} (hflag : s.takesFlag = true)
    (hlabel : s.name? 0 = some label) :
    (s.mapAt r.inst 0).hasFlag "readonly" = s.hasFlag "readonly" ↔ r.Keeps s := by
  rw [Statement.hasFlag_readonly hlabel,
    Statement.hasFlag_readonly (Statement.name?_mapAt_zero r.inst hlabel), Statement.flagged_mapAt]
  unfold Relabeling.Keeps
  rw [hlabel]
  cases s.flagged with
  | true => simp
  | false =>
    rw [Bool.or_false, Bool.or_false, Bool.eq_iff_iff]
    simp [hflag]

/-- What an instruction does is the same under another label, unless the label is read
as its flag. -/
theorem operation_relabeled {label : String} (hkeyword : s.keyword = "inst")
    (hlabel : s.name? 0 = some label) :
    Carries (fun op op' => op' = op ↔ r.Keeps s) (b.operation label s)
      ((b.under x).operation (r.inst label) (s.mapAt r.inst 0)) := by
  have hnameAt (i : Nat) (hi : 0 ≠ i) (what : String) :
      (s.mapAt r.inst 0).nameAt i what = s.nameAt i what := Statement.nameAt_mapAt_of_ne _ _ hi what
  unfold Draft.operation
  extract_lets operand operand'
  -- An operand that is missing is missed under another label, but missed.
  have hoperand : Carries Eq operand operand' := by
    unfold operand operand'
    rw [Statement.getElem?_mapAt_of_ne _ _ (by decide)]
    cases s.positional[2]? with
    | none => exact .error
    | some d => exact fun loc h => ⟨loc, h, rfl⟩
  rw [hnameAt 1 (by decide)]
  simp only [hnameAt 2 (by decide), Statement.nameAttr?_mapAt]
  refine .after _ fun word hword => ?_
  have hname := Statement.name?_of_nameAt hword
  -- Operations that take no flag keep it whatever their label.
  have hkeeps (hnotCall : word ≠ "call") (hnotEffect : word ≠ "opaque") : r.Keeps s := by
    intro hflag
    simp [Statement.takesFlag, hname, hnotCall, hnotEffect] at hflag
  split
  case h_1 =>
    refine .along hoperand fun loc => .ok ?_
    exact iff_of_true rfl (hkeeps (by decide) (by decide))
  case h_2 =>
    have hstored := hkeeps (by decide) (by decide)
    refine .along hoperand fun loc => ?_
    cases s.nameAttr? "value" with
    | none => exact .ok (iff_of_true rfl hstored)
    | some name => exact .after (b.value name) fun v _ => .ok (iff_of_true rfl hstored)
  case h_3 =>
    have hflag : s.takesFlag = true := by simp [Statement.takesFlag, hkeyword, hname]
    refine .after _ fun callee _ => .after (b.locations s "accesses") fun accesses _ => .ok ?_
    simpa using hasFlag_mapAt_iff hflag hlabel
  case h_4 =>
    have hflag : s.takesFlag = true := by simp [Statement.takesFlag, hkeyword, hname]
    refine .after (b.locations s "accesses") fun accesses _ => .ok ?_
    simpa using hasFlag_mapAt_iff hflag hlabel
  case h_5 =>
    refine .after _ fun name _ => .after (b.value name) fun v _ => .ok ?_
    exact iff_of_true rfl (hkeeps (by decide) (by decide))
  case h_6 =>
    refine .after _ fun name _ => .after (b.value name) fun v _ => .ok ?_
    exact iff_of_true rfl (hkeeps (by decide) (by decide))
  case h_7 => exact .ok (iff_of_true rfl (hkeeps (by decide) (by decide)))
  case h_8 => exact .error

/-- An instruction is declared under its new label. Its operation is the same exactly if the flag is
kept. -/
theorem addInst_relabeled (h : x.Match r ss kept b) (hr : r.Admissible ss) (hs : s ∈ ss)
    (hkeyword : s.keyword = "inst") :
    Carries (Draft.Relabeled r ss (kept ∧ r.Keeps s)) (b.addInst s)
      ((b.under x).addInst (s.mapAt r.inst 0)) := by
  unfold Draft.addInst Statement.wordAttr Statement.attr
  rw [Statement.nameAt_mapAt_self, Statement.attr?_mapAt]
  refine .image _ _ fun label hlabel => ?_
  extract_lets rest rest'
  refine .guard (fun _ => .error) fun hdup => ?_
  have hnew : label ∉ b.instLabels.keys := by simpa [OrderedMap.contains] using hdup
  have hmem := mem_labels hs hkeyword hlabel
  constructor
  · show ¬ x.insts.contains (r.inst label) = true
    simpa [OrderedMap.contains] using h.insts.not_mem_keys hr.inst hmem hnew
  refine .after _ fun block _ => ?_
  refine (operation_relabeled hkeyword (Statement.name?_of_nameAt hlabel)).bind fun op op' hop => ?_
  -- Both drafts have the same number of instructions, so the new one gets the same number.
  have hid : InstId.mk x.instructions.size = ⟨b.function.instructions.size⟩ :=
    congrArg InstId.mk h.size
  let instruction (op : Operation) : Instruction := ⟨⟨b.function.instructions.size⟩, ⟨block⟩, op⟩
  let x' : Binders :=
    { x with
      instructions := x.instructions.push (instruction op')
      insts := x.insts.insert (r.inst label) ⟨b.function.instructions.size⟩ }
  refine .ok ⟨x', ?_, ?_⟩
  · simp only [Draft.under, hid, x', instruction]
  · exact
      { insts := h.insts.insert hr.inst hmem hnew
        nodes := h.nodes
        estimates := h.estimates
        size := by simp [x', h.size]
        same := by
          show x.instructions.push _ = b.function.instructions.push _ ↔ _
          rw [Array.push_eq_push, h.same, ← hop]
          simp [instruction, and_comm] }

/-! ### Lists of statements -/

/-- A statement takes related drafts to related drafts. Only instruction statements have a flag to
keep. -/
theorem Draft.step_relabeled (hr : r.Admissible ss) (hs : s ∈ ss) {b b' : Draft}
    (h : Draft.Relabeled r ss kept b b') :
    Carries (Draft.Relabeled r ss (kept ∧ r.Keeps s)) (b.step s) (b'.step (r.statement s)) := by
  obtain ⟨x, rfl, h⟩ := h
  have hother (hne : s.keyword ≠ "inst") : kept = (kept ∧ r.Keeps s) := by
    have hkeeps : r.Keeps s := fun hflag => by simp [Statement.takesFlag, hne] at hflag
    simp [hkeeps]
  unfold Draft.step
  rw [r.keyword_statement]
  split
  case h_12 => exact .error
  case h_2 hk =>
    simp only [Relabeling.statement, hk]
    exact addInst_relabeled h hr hs hk
  -- Of all other statements the flag is kept, so nothing is added to the condition.
  all_goals
    rename_i hk
    rw [← hother (by simp [hk])]
    simp only [Relabeling.statement, hk]
  case h_1 => exact addValue_relabeled h
  case h_3 => exact addAlias_relabeled h hr hs hk
  case h_4 => exact addEstimate_relabeled h hr hs hk
  case h_5 => exact addUnknown_relabeled h hr
  case h_6 => exact addLoop_relabeled h
  case h_7 => exact addAccess_relabeled h
  case h_8 => exact addLive_relabeled h
  case h_9 => exact setReach_relabeled h
  case h_10 => exact setDependence_relabeled h
  case h_11 => exact setModRef_relabeled h

/-- What was read so far and what it is with other labels. The functions are the same if and only if
every flag was `kept`. -/
structure Loader.Relabeled (r : Relabeling) (ss : List Statement) (kept : Prop) (l l' : Loader) :
    Prop where
  length : l'.finished.length = l.finished.length
  current : Option.Rel (fun b b' => ∃ k, Draft.Relabeled r ss k b b') l.current l'.current
  same : l'.functions = l.functions ↔ kept

/-- Under other labels as many functions were read. -/
theorem Loader.Relabeled.length_functions {l l' : Loader} (h : Loader.Relabeled r ss kept l l') :
    l'.functions.length = l.functions.length := by
  have hcurrent := h.current
  unfold Loader.functions
  cases hl : l.current <;> cases hl' : l'.current <;> rw [hl, hl'] at hcurrent
  · simp [h.length]
  · cases hcurrent
  · cases hcurrent
  · simp [h.length]

/-- The functions of related drafts are the same exactly if their instructions are. -/
theorem Draft.Relabeled.same {b b' : Draft} (h : Draft.Relabeled r ss kept b b') :
    b'.function = b.function ↔ kept := by
  obtain ⟨x, rfl, h⟩ := h
  rw [← h.same]
  constructor
  · exact congrArg Function.instructions
  · intro hsame
    unfold Draft.under
    rw [hsame]

/-- A function starts without labels. -/
theorem Draft.new_relabeled (name : String) :
    Draft.Relabeled r ss True (Draft.new name) (Draft.new name) := by
  have hnone {α : Type} (g : String → String) (declared : Set String) :
      Relabels (α := α) g declared ∅ ∅ := ⟨rfl, fun _ h => absurd h List.not_mem_nil⟩
  exact ⟨⟨#[], ∅, ∅, ∅⟩, rfl, hnone _ _, hnone _ _, hnone _ _, rfl, iff_of_true rfl trivial⟩

/-- A statement takes related readings to related ones. -/
theorem Loader.step_relabeled (hr : r.Admissible ss) (hs : s ∈ ss) {l l' : Loader}
    (h : Loader.Relabeled r ss kept l l') :
    Carries (Loader.Relabeled r ss (kept ∧ r.Keeps s)) (l.step s) (l'.step (r.statement s)) := by
  unfold Loader.step
  rw [r.keyword_statement]
  by_cases hk : s.keyword = "function"
  · have hkeeps : r.Keeps s := fun hflag => by simp [Statement.takesFlag, hk] at hflag
    have hstatement : r.statement s = s := by
      simp only [Relabeling.statement, hk]
      rfl
    rw [if_pos hk, if_pos hk, hstatement]
    intro l₁ hl₁
    obtain ⟨name, hname, rfl⟩ := map_eq_ok hl₁
    rw [hname]
    refine ⟨_, rfl, h.length_functions, .some ⟨True, Draft.new_relabeled name⟩, ?_⟩
    show l'.functions ++ [_] = l.functions ++ [_] ↔ _
    rw [List.append_left_inj, h.same]
    simp [hkeeps]
  · rw [if_neg hk, if_neg hk]
    have hcurrent := h.current
    have hsame := h.same
    unfold Loader.functions at hsame
    cases hl : l.current with
    | none => exact .error
    | some b =>
      cases hl' : l'.current with
      | none =>
        rw [hl, hl'] at hcurrent
        cases hcurrent
      | some b' =>
        rw [hl, hl'] at hcurrent hsame
        obtain ⟨k, hb⟩ : ∃ k, Draft.Relabeled r ss k b b' := by
          cases hcurrent
          assumption
        intro l₁ hl₁
        obtain ⟨b₁, hb₁, rfl⟩ := map_eq_ok hl₁
        obtain ⟨b₁', hb₁', hrel⟩ := Draft.step_relabeled hr hs hb b₁ hb₁
        refine ⟨_, congrArg (Except.map _) hb₁', h.length, .some ⟨_, hrel⟩, ?_⟩
        -- Finished functions and the current one are compared apart, for each is the same or not by
        -- itself.
        have hsplit (f f' : Function) : l'.finished ++ [f'] = l.finished ++ [f]
            ↔ l'.finished = l.finished ∧ f' = f := by
          constructor
          · intro heq
            obtain ⟨hfinished, hlast⟩ := List.append_inj heq h.length
            exact ⟨hfinished, List.singleton_inj.mp hlast⟩
          · rintro ⟨hfinished, rfl⟩
            rw [hfinished]
        show l'.finished ++ [b₁'.function] = l.finished ++ [b₁.function] ↔ _
        rw [hsplit, hrel.same, ← hsame]
        show _ ↔ l'.finished ++ [b'.function] = l.finished ++ [b.function] ∧ _
        rw [hsplit, hb.same, and_assoc]

/-- A list of statements does the same to drafts under other labels, by induction: the conditions of
its statements add up. -/
theorem foldlM_relabeled (hr : r.Admissible ss) {rest : List Statement} (hrest : rest ⊆ ss)
    {l l' : Loader} (h : Loader.Relabeled r ss kept l l') :
    Carries (Loader.Relabeled r ss (kept ∧ ∀ s ∈ rest, r.Keeps s))
      (rest.foldlM (fun l s => (Loader.step l s).mapError (FactsError.refused s.line)) l)
      ((rest.map r.statement).foldlM
        (fun l s => (Loader.step l s).mapError (FactsError.refused s.line)) l') := by
  induction rest generalizing l l' kept with
  | nil =>
    refine .ok ?_
    simpa using h
  | cons s rest ih =>
    obtain ⟨hs, hrest⟩ := List.cons_subset.mp hrest
    rw [List.map_cons, List.foldlM_cons, List.foldlM_cons]
    refine (Loader.step_relabeled hr hs h).mapError.bind fun l₁ l₁' h₁ => ?_
    have hall : (kept ∧ ∀ t ∈ s :: rest, r.Keeps t) = ((kept ∧ r.Keeps s) ∧ ∀ t ∈ rest, r.Keeps t) := by
      simp [and_assoc]
    rw [hall]
    exact ih hrest h₁

end Steps

/-- Statements that are accepted are accepted with other labels too, and describe the same functions
if and only if every label in the place of the flag `readonly` keeps what the flag says. -/
theorem load_relabel {ss : List Statement} {fs : List Function} (hload : load ss = .ok fs)
    (r : Relabeling) (hr : r.Admissible ss) :
    ∃ fs', load (ss.map r.statement) = .ok fs' ∧ (fs' = fs ↔ ∀ s ∈ ss, r.Keeps s) := by
  have hnone : Loader.Relabeled r ss True {} {} := ⟨rfl, .none, iff_of_true rfl trivial⟩
  obtain ⟨l, hl, rfl⟩ := map_eq_ok hload
  obtain ⟨l', hl', h⟩ := foldlM_relabeled hr (List.Subset.refl ss) hnone l hl
  refine ⟨l'.functions, congrArg (Except.map _) hl', ?_⟩
  rw [h.same, true_and]

/-! An opaque instruction without flag, and an unknown access of it. -/

def opaqueUnder (label : String) : List Statement := [
  ⟨"function", 1, [.name "f"], []⟩,
  ⟨"inst", 2, [.name label, .name "opaque"], [("block", .number 0)]⟩,
  ⟨"alias", 3, [.name "n"], []⟩,
  ⟨"unknown", 4, [.name label, .name "n"], []⟩]

/-- Exchanges two instruction labels. -/
def Relabeling.swap (a b : String) : Relabeling := ⟨Equiv.swap a b, id, id⟩

/-- An exchange takes no two labels to one. -/
theorem Relabeling.swap_admissible (a b : String) (ss : List Statement)
    (h : "top" ∉ labels "alias" ss) : (swap a b).Admissible ss where
  inst := (Equiv.swap a b).injective.injOn
  node := Set.injOn_id _
  estimate := Set.injOn_id _
  not_top _ hl := fun heq => h (heq ▸ hl)

/-- The instruction may be called `b`, but not `readonly`. -/
theorem load_relabel_swapped : ∃ fs, load (opaqueUnder "a") = .ok fs
    ∧ load ((opaqueUnder "a").map (Relabeling.swap "a" "b").statement) = .ok fs
    ∧ load ((opaqueUnder "a").map (Relabeling.swap "a" "readonly").statement) ≠ .ok fs := by
  have hadmissible (b : String) :=
    Relabeling.swap_admissible "a" b (opaqueUnder "a") (by decide +kernel)
  obtain ⟨fs, hfs⟩ : ∃ fs, load (opaqueUnder "a") = .ok fs := ⟨_, rfl⟩
  obtain ⟨fs', hfs', hsame⟩ := load_relabel hfs _ (hadmissible "b")
  obtain ⟨fs'', hfs'', hother⟩ := load_relabel hfs _ (hadmissible "readonly")
  refine ⟨fs, hfs, ?_, ?_⟩
  · rw [hfs', hsame.mpr (by decide +kernel)]
  · rw [hfs'']
    intro h
    exact absurd (hother.mp (Except.ok.inj h)) (by decide +kernel)

/-- Only its label changes, and it no longer writes memory. -/
theorem opaque_label_read_as_flag :
    Function.Injective (Relabeling.swap "a" "readonly").inst
      ∧ (Relabeling.swap "a" "readonly").Admissible (opaqueUnder "a")
      ∧ (opaqueUnder "a").map (Relabeling.swap "a" "readonly").statement = opaqueUnder "readonly"
      ∧ ∃ f f', load (opaqueUnder "a") = .ok [f] ∧ load (opaqueUnder "readonly") = .ok [f']
        ∧ f.instructions = #[⟨⟨0⟩, ⟨0⟩, .effect false []⟩]
        ∧ f'.instructions = #[⟨⟨0⟩, ⟨0⟩, .effect true []⟩] :=
  ⟨(Equiv.swap "a" "readonly").injective, Relabeling.swap_admissible _ _ _ (by decide +kernel), rfl,
    _, _, rfl, rfl, rfl, rfl⟩

end Facts

end Privatization
