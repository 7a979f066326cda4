import Privatization.Proofs.Facts.Contents

/-!
# Names that identify

Values, instructions, alias nodes and estimate memories are declared once: a statement that repeats
a name of its sort is refused (`load_of_repeated`). Nothing of the kind is asked of loops, which are
accepted under any name (`load_renamed`). So names identify what is declared if and only if no two
loop statements of one function give one name (`namesIdentify_iff`).
-/

namespace Privatization

/-- Every value is the one that is found under its name. -/
def Function.ValuesFound (f : Function) : Prop :=
  ∀ id v, f.value? id = some v → f.findValue? v.name = some id

/-- Every loop is the one that is found under its name. -/
def LoopNest.Found (n : LoopNest) : Prop := ∀ id l, n.get? id = some l → n.find? l.name = some id

namespace Facts

/-! ## What is found -/

/-- In a list without repetitions every element is found in its place, and in no other list. -/
theorem found_iff_nodup {α : Type} [DecidableEq α] {as : List α} :
    (∀ i a, as[i]? = some a → as.idxOf? a = some i) ↔ as.Nodup := by
  rw [List.nodup_iff_getElem?_ne_getElem?]
  constructor
  · intro h i j hij hj heq
    have hj' := h j as[j] (List.getElem?_eq_getElem hj)
    have hi' := h i as[j] (heq.trans (List.getElem?_eq_getElem hj))
    exact absurd (Option.some.inj (hi'.symm.trans hj')) (Nat.ne_of_lt hij)
  · intro h i a hi
    obtain ⟨hlt, rfl⟩ := List.getElem?_eq_some_iff.mp hi
    refine List.idxOf?_eq_some_iff.mpr ⟨hlt, rfl, fun j hj heq => h j i hj hlt ?_⟩
    rw [hi, List.getElem?_eq_getElem (Nat.lt_trans hj hlt), heq]

/-- Where names are kept, all items are found under theirs if and only if no name is
declared twice. -/
theorem Table.Lists.found_iff {t : Table} {sort : Declared} {body : List Statement}
    (r : t.Lists sort body) (hkeeps : sort.keepsName = true) :
    (∀ i name, t.name? i = some name → t.find? name = some i) ↔ (names sort body).Nodup := by
  rw [← found_iff_nodup]
  simp only [r.name? hkeeps, r.find?]
  rfl

variable {b : Draft}

/-- In the table of values the same is said by number. -/
theorem valuesFound_iff : b.function.ValuesFound
    ↔ ∀ i name, (b.table .value).name? i = some name → (b.table .value).find? name = some i := by
  constructor
  · intro h i name hi
    obtain ⟨v, hv, rfl⟩ := Option.map_eq_some_iff.mp hi
    exact congrArg (Option.map ValueId.index) (h ⟨i⟩ v hv)
  · intro h id v hv
    have hfound := h id.index v.name (congrArg (Option.map Value.name) hv)
    obtain ⟨⟨j⟩, hj, rfl⟩ := Option.map_eq_some_iff.mp hfound
    exact hj

/-- Loops are found by their names in a function exactly if they are in its table of loops. -/
theorem loopsFound_iff : b.function.loops.Found
    ↔ ∀ i name, (b.table .loop).name? i = some name → (b.table .loop).find? name = some i := by
  constructor
  · intro h i name hi
    obtain ⟨l, hl, rfl⟩ := Option.map_eq_some_iff.mp hi
    exact congrArg (Option.map LoopId.index) (h ⟨i⟩ l hl)
  · intro h id l hl
    have hfound := h id.index l.name (congrArg (Option.map Loop.name) hl)
    obtain ⟨⟨j⟩, hj, rfl⟩ := Option.map_eq_some_iff.mp hfound
    exact hj

/-- Values of a section are found, since none is declared twice. -/
theorem valuesFound_of_load {x : Section} {f : Function} (h : x.load = .ok f) : f.ValuesFound := by
  obtain ⟨b, rfl, r⟩ := lists_of_load h
  exact valuesFound_iff.mpr (((r .value).found_iff rfl).mpr ((r .value).nodup nofun))

/-- Loops of a section are found if their names differ. -/
theorem loopsFound_iff_of_load {x : Section} {f : Function} (h : x.load = .ok f) :
    f.loops.Found ↔ (names .loop x.body).Nodup := by
  obtain ⟨b, rfl, r⟩ := lists_of_load h
  exact loopsFound_iff.trans ((r .loop).found_iff rfl)

/-! ## Names that are repeated -/

/-- A name that is there is read. -/
theorem nameAt_of_name? {s : Statement} {i : Nat} {name : String} (h : s.name? i = some name)
    (what : String) : s.nameAt i what = .ok name := by
  unfold Statement.name? at h
  unfold Statement.nameAt
  rw [h]

/-- What is found under a label has the label. -/
theorem contains_of_find {α : Type} {m : OrderedMap String α} {label : String} {index : α → Nat}
    {i : Nat} (h : (m.get? label).map index = some i) : m.contains label = true := by
  obtain ⟨a, ha, -⟩ := Option.map_eq_some_iff.mp h
  rw [OrderedMap.contains_eq]
  exact Option.isSome_of_eq_some ha

/-- A statement that repeats a name is refused, unless it declares a loop. -/
theorem step_of_repeated {s : Statement} {sort : Declared} {name : String} {i : Nat}
    (hsort : sort ≠ .loop) (hs : s.keyword = sort.keyword) (hname : s.name? 0 = some name)
    (hfound : b.find? sort name = some i) : b.step s = .error (.declaredTwice sort name) := by
  unfold Draft.step
  -- Each of the four sorts is looked up in its own table before anything else is read.
  rw [hs]
  cases sort with
  | value =>
    show b.addValue s = _
    obtain ⟨id, hid, -⟩ := Option.map_eq_some_iff.mp hfound
    unfold Draft.addValue
    rw [nameAt_of_name? hname]
    exact if_pos (Option.isSome_of_eq_some hid)
  | instruction =>
    show b.addInst s = _
    unfold Draft.addInst
    rw [nameAt_of_name? hname]
    exact if_pos (contains_of_find hfound)
  | aliasNode =>
    show b.addAlias s = _
    unfold Draft.addAlias
    rw [nameAt_of_name? hname]
    refine if_pos ?_
    rw [Bool.or_eq_true, decide_eq_true_eq]
    by_cases htop : name = "top"
    · -- The root has a name of its own, which no statement may declare.
      exact .inl htop
    · have hfound : (if name = "top" then some 0 else (b.nodeLabels.get? name).map (·.index))
        = some i := hfound
      rw [if_neg htop] at hfound
      exact .inr (contains_of_find hfound)
  | estimate =>
    show b.addEstimate s = _
    unfold Draft.addEstimate
    rw [nameAt_of_name? hname]
    exact if_pos (contains_of_find hfound)
  | loop => exact absurd rfl hsort

/-- The statement repeats a name of the sort it declares, behind the statements `front`. -/
def Repeats (sort : Declared) (front : List Statement) (s : Statement) : Prop :=
  s.keyword = sort.keyword ∧ ∃ name ∈ names sort front, s.name? 0 = some name

/-- A statement that repeats the name of anything but a loop is refused with its line, whatever
follows, unless a statement before it is refused. -/
theorem load_of_repeated {earlier front : List Statement} {s : Statement} {sort : Declared}
    {name : String} (h : Underway earlier front) (hsort : sort ≠ .loop)
    (hs : s.keyword = sort.keyword) (hname : s.name? 0 = some name) (hmem : name ∈ names sort front)
    (after : List Statement) :
    load (earlier ++ s :: after)
      = load earlier >>= fun _ => .error (.refused s.line (.declaredTwice sort name)) := by
  refine load_of_refused h (hs ▸ sort.keyword_ne_function) (fun _ b hrun => ?_) after
  cases hfound : b.find? sort name with
  | some i => exact step_of_repeated hsort hs hname hfound
  | none =>
    have hnumber : number sort front name = none :=
      (congrFun (lists_of_run hrun sort).find? name).symm.trans hfound
    exact absurd hmem (number_eq_none.mp hnumber)

/-! ## Names of loops -/

/-- The depth of a loop does not depend on its name. -/
theorem depthUnder_renamed (n : LoopNest) (spec : LoopNest.LoopSpec) (name : String) :
    Carries Eq (n.depthUnder spec) (n.depthUnder { spec with name }) := by
  unfold LoopNest.depthUnder
  cases hparent : spec.parent with
  | none => exact .ok rfl
  | some p =>
    dsimp only
    cases n.get? p with
    | none => exact .error
    | some outer =>
      dsimp only
      split
      · exact .ok rfl
      · exact .error

/-- A loop is accepted under every name, or under none. -/
theorem add_renamed (n : LoopNest) (spec : LoopNest.LoopSpec) (name : String) :
    Carries (fun _ _ => True) (n.add spec) (n.add { spec with name }) := by
  intro r hr
  unfold LoopNest.add at hr
  split at hr
  next hheader =>
    split at hr
    next => cases hr
    next d hd =>
      obtain ⟨_, hd', rfl⟩ := depthUnder_renamed n spec name d hd
      unfold LoopNest.add
      rw [if_pos hheader]
      split
      next e he => cases he.symm.trans hd'
      next => exact ⟨_, rfl, trivial⟩
  next => cases hr

/-- A loop statement accepted with one name is accepted with any other. -/
theorem addLoop_renamed (b : Draft) (s : Statement) (g : String → String) :
    Carries (fun _ _ => True) (b.addLoop s) (b.addLoop (s.mapAt g 0)) := by
  unfold Draft.addLoop
  rw [Statement.nameAt_mapAt_self]
  refine .image _ g fun name _ => ?_
  extract_lets _ rest rest'
  have hrest (parent : Option LoopId) : Carries (fun _ _ => True) (rest parent) (rest' parent) := by
    refine .after _ fun data _ => .after _ fun blocks _ => .after _ fun start _ => ?_
    refine .after _ fun header _ => .after _ fun latch _ => .after _ fun exit _ => ?_
    exact .bind (add_renamed _ _ _).mapError fun _ _ _ => .ok trivial
  rw [Statement.nameAttr?_mapAt]
  cases s.nameAttr? "parent" with
  | none => exact hrest none
  | some p => exact .after _ fun parent _ => hrest parent

/-- A loop statement is accepted with any name, whatever was read before. -/
theorem step_renamed (l : Loader) {s : Statement} (hs : s.keyword = "loop") (g : String → String) :
    Carries (fun _ _ => True) (l.step s) (l.step (s.mapAt g 0)) := by
  have hloop (b : Draft) (s : Statement) (hs : s.keyword = "loop") : b.step s = b.addLoop s := by
    unfold Draft.step
    rw [hs]
    rfl
  have hne : s.keyword ≠ "function" := hs ▸ by decide
  obtain ⟨finished, _ | b⟩ := l
  · unfold Loader.step
    rw [if_neg hne]
    exact .error
  · -- Outside of a function both are refused; inside one both are read as loops.
    rw [Loader.step_of_ne finished b hne, Loader.step_of_ne finished b (s := s.mapAt g 0) hne,
      hloop b s hs, hloop b (s.mapAt g 0) hs]
    intro l hl
    obtain ⟨b', hb', rfl⟩ := map_eq_ok hl
    obtain ⟨b'', hb'', -⟩ := addLoop_renamed b s g b' hb'
    rw [hb'']
    exact ⟨_, rfl, trivial⟩

/-- A loop statement that is accepted under one name is accepted under every name. -/
theorem load_renamed (earlier : List Statement) {s : Statement} (hs : s.keyword = "loop")
    (g : String → String) :
    Carries (fun _ _ => True) (load (earlier ++ [s])) (load (earlier ++ [s.mapAt g 0])) := by
  intro fs h
  unfold load at h ⊢
  rw [List.foldlM_append] at h ⊢
  obtain ⟨l, hl, rfl⟩ := map_eq_ok h
  obtain ⟨l₁, hl₁, hl⟩ := bind_eq_ok hl
  obtain ⟨l₂, hl₂, -⟩ := bind_eq_ok hl
  obtain ⟨l₃, hl₃, -⟩ := step_renamed l₁ hs g l₂ (mapError_eq_ok hl₂)
  refine ⟨l₃.functions, ?_, trivial⟩
  rw [hl₁]
  show Except.map _ (((l₁.step (s.mapAt g 0)).mapError _) >>= pure) = _
  rw [hl₃]
  rfl

/-! ## Lists of statements -/

/-- The names in a list identify what is declared. If the list is accepted, every value and every
loop of each of its functions is found under its name. If its last statement repeats a name, that
statement is refused with its line, whatever follows, unless a statement before it is refused. -/
structure NamesIdentify (ss : List Statement) : Prop where
  values : ∀ fs, load ss = .ok fs → ∀ f ∈ fs, f.ValuesFound
  loops : ∀ fs, load ss = .ok fs → ∀ f ∈ fs, f.loops.Found
  refused : ∀ earlier s front sort, ss = earlier ++ [s] → Underway earlier front →
    Repeats sort front s → ∃ e, ∀ after,
      load (earlier ++ s :: after) = load earlier >>= fun _ => .error (.refused s.line e)

/-- The names in a list identify what is declared, unless the list is accepted and two loop
statements of one function give one name. -/
theorem namesIdentify_iff (ss : List Statement) : NamesIdentify ss
    ↔ ∀ fs, load ss = .ok fs → ∀ x ∈ sections ss, (names .loop x.body).Nodup := by
  constructor
  · intro hidentify fs h x hx
    obtain ⟨f, hf, hload⟩ := exists_function_of_section h hx
    exact (loopsFound_iff_of_load hload).mp (hidentify.loops fs h f hf)
  · intro hnodup
    constructor
    case values =>
      intro fs h f hf
      obtain ⟨x, hx, hload⟩ := exists_section_of_function h hf
      exact valuesFound_of_load hload
    case loops =>
      intro fs h f hf
      obtain ⟨x, hx, hload⟩ := exists_section_of_function h hf
      exact (loopsFound_iff_of_load hload).mpr (hnodup fs h x hx)
    case refused =>
      rintro earlier s front sort rfl hunderway ⟨hs, name, hmem, hname⟩
      by_cases hsort : sort = .loop
      · subst hsort
        refine exists_refusal fun fs h => ?_
        -- An accepted list would have the name twice in its last section.
        obtain ⟨x, hx, hbody⟩ :=
          exists_section_of_underway hunderway (hs ▸ Declared.keyword_ne_function .loop)
        have hlast := hnodup fs h x hx
        rw [hbody, names_concat_of_declares front hs hname] at hlast
        exact (List.nodup_append.mp hlast).2.2 name hmem name (List.mem_singleton_self name) rfl
      · exact ⟨_, load_of_repeated hunderway hsort hs hname hmem⟩

/-- Two loops side by side under the given names. -/
def loopsCalled (a b : String) : List Statement := [
  ⟨"function", 1, [.name "f"], []⟩,
  ⟨"loop", 2, [.name a], [("header", .number 1), ("blocks", .list [.number 1]),
    ("latch", .number 0), ("exit", .number 1)]⟩,
  ⟨"loop", 3, [.name b], [("header", .number 2), ("blocks", .list [.number 2]),
    ("latch", .number 2), ("exit", .number 3)]⟩]

/-- Two loops of different names are found under them. -/
theorem namesIdentify_twoLoops : (∃ fs, load (loopsCalled "l" "m") = .ok fs)
    ∧ NamesIdentify (loopsCalled "l" "m") :=
  ⟨⟨_, rfl⟩, (namesIdentify_iff _).mpr fun _ _ => by decide⟩

/-- Two loops may get one name, and then the second of them is not found. -/
theorem loops_share_name : ∃ f, load (loopsCalled "l" "l") = .ok [f]
    ∧ (∃ l, f.loops.get? ⟨1⟩ = some l ∧ l.name = "l") ∧ f.loops.find? "l" = some ⟨0⟩
    ∧ ¬NamesIdentify (loopsCalled "l" "l") := by
  refine ⟨_, rfl, ⟨_, rfl, rfl⟩, rfl, fun h => ?_⟩
  cases h.loops _ rfl _ List.mem_cons_self ⟨1⟩ _ rfl

end Facts

end Privatization
