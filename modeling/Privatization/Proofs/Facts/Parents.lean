import Privatization.Proofs.Facts.Contents

/-!
# Parents that are written

An alias, estimate or loop statement may say with `parent=` what its item lies in. A name that is
given there is looked up among the items declared before it, and refused if it is none of them. A
value of another form is not refused: the statement is read as if it gave no parent
(`load_without`), and only the first of several `parent=` counts. So parents that are written are
kept if and only if all that are given to one statement are one name (`parentsKept_iff`).
-/

namespace Privatization

namespace Facts

/-- The values given to an attribute. -/
def Statement.given (s : Statement) (key : String) : List Datum :=
  (s.attrs.filter (·.1 == key)).map Prod.snd

/-- The statement without the values given to an attribute. -/
def Statement.without (s : Statement) (key : String) : Statement :=
  { s with attrs := s.attrs.filter (·.1 ≠ key) }

/-- The item that is declared behind the statements `front` lies in the one that `d` names. -/
def LiesIn (f : Function) (sort : Declared) (front : List Statement) (d : Datum) : Prop :=
  ∃ name i, d = .name name ∧ number sort front name = some i
    ∧ f.parent? sort (names sort front).length = some i

/-! ## Values that count -/

section Values

variable {s : Statement} {key key' name : String}

/-- Of several values the first one counts. -/
theorem attr?_eq_head? (s : Statement) (key : String) : s.attr? key = (s.given key).head? := by
  unfold Statement.attr? Statement.given
  rw [List.head?_map, List.head?_filter]

/-- A parent attribute counts if its first value is a name. -/
theorem nameAttr?_eq_some :
    s.nameAttr? key = some name ↔ (s.given key).head? = some (.name name) := by
  unfold Statement.nameAttr?
  rw [attr?_eq_head?, Option.bind_eq_some_iff]
  constructor
  · rintro ⟨d, hd, hname⟩
    cases d <;> cases hname
    exact hd
  · exact fun h => ⟨_, h, rfl⟩

/-- Without its values an attribute is not there. -/
theorem attr?_without_self (s : Statement) (key : String) : (s.without key).attr? key = none := by
  unfold Statement.attr? Statement.without
  rw [List.find?_filter]
  simp

/-- The attributes under other keys are read as before. -/
theorem attr?_without_of_ne (s : Statement) (h : key' ≠ key) :
    (s.without key).attr? key' = s.attr? key' := by
  unfold Statement.attr? Statement.without
  rw [List.find?_filter]
  congr 2
  funext p
  by_cases hp : p.1 = key'
  · simp [hp, h]
  · simp [hp]

/-- An attribute that is not there gives no name. -/
theorem nameAttr?_without_self (s : Statement) (key : String) :
    (s.without key).nameAttr? key = none := by
  rw [Statement.nameAttr?, attr?_without_self, Option.bind_none]

/-- The others give what they gave. -/
theorem nameAttr?_without_of_ne (s : Statement) (h : key' ≠ key) :
    (s.without key).nameAttr? key' = s.nameAttr? key' := by
  rw [Statement.nameAttr?, attr?_without_of_ne s h, Statement.nameAttr?]

end Values

/-! ## Values that do not count -/

section Ignored

variable {s : Statement} {sort : Declared}

/-- An alias statement whose parent is no name is read as without parent. -/
theorem addAlias_without (b : Draft) (h : s.nameAttr? "parent" = none) :
    b.addAlias (s.without "parent") = b.addAlias s := by
  unfold Draft.addAlias
  simp (disch := decide) only [nameAttr?_without_self, nameAttr?_without_of_ne, h]
  rfl

/-- An estimate statement whose parent is no name is read as without parent. -/
theorem addEstimate_without (b : Draft) (h : s.nameAttr? "parent" = none) :
    b.addEstimate (s.without "parent") = b.addEstimate s := by
  unfold Draft.addEstimate Statement.attr
  simp (disch := decide) only [nameAttr?_without_self, nameAttr?_without_of_ne,
    attr?_without_of_ne, h]
  rfl

/-- A loop statement whose parent is no name is read as without parent. -/
theorem addLoop_without (b : Draft) (h : s.nameAttr? "parent" = none) :
    b.addLoop (s.without "parent") = b.addLoop s := by
  unfold Draft.addLoop Statement.wordAttr Statement.sourceAttr Statement.attr
  simp (disch := decide) only [nameAttr?_without_self, attr?_without_of_ne, h]
  rfl

/-- Every statement whose items lie in one another is read as without parent if its parent is no
name. -/
theorem step_without (b : Draft) (hs : s.keyword = sort.keyword) (hnests : sort.nests = true)
    (h : s.nameAttr? "parent" = none) : b.step (s.without "parent") = b.step s := by
  have hs' : (s.without "parent").keyword = sort.keyword := hs
  unfold Draft.step
  rw [hs, hs']
  cases sort with
  | aliasNode => exact addAlias_without b h
  | estimate => exact addEstimate_without b h
  | loop => exact addLoop_without b h
  | value => cases hnests
  | instruction => cases hnests

/-- A parent that is no name is not there for the loader, wherever the statement stands. -/
theorem load_without (earlier later : List Statement) (hs : s.keyword = sort.keyword)
    (hnests : sort.nests = true) (h : s.nameAttr? "parent" = none) :
    load (earlier ++ s.without "parent" :: later) = load (earlier ++ s :: later) := by
  have hstep (l : Loader) : l.step (s.without "parent") = l.step s := by
    have hne : s.keyword ≠ "function" := hs ▸ sort.keyword_ne_function
    have hne' : (s.without "parent").keyword ≠ "function" := hne
    unfold Loader.step
    rw [if_neg hne, if_neg hne']
    cases l.current with
    | none => rfl
    | some b => exact congrArg (Except.map _) (step_without b hs hnests h)
  unfold load
  rw [List.foldlM_append, List.foldlM_append]
  simp only [List.foldlM_cons, hstep]
  rfl

end Ignored

/-! ## Parents that are kept -/

/-- Names that stand for one item are one name. -/
theorem eq_of_number {sort : Declared} {body : List Statement} {name name' : String} {i : Nat}
    (h : number sort body name = some i) (h' : number sort body name' = some i) : name = name' := by
  obtain ⟨_, heq, -⟩ := List.idxOf?_eq_some_iff.mp h
  obtain ⟨_, heq', -⟩ := List.idxOf?_eq_some_iff.mp h'
  exact heq.symm.trans heq'

/-- An item lies in one other item, so all that is written is kept if and only if it is one name. -/
theorem liesIn_iff {f : Function} {s : Statement} {sort : Declared} {front : List Statement}
    (hknown : ∀ p, s.nameAttr? "parent" = some p → p ∈ names sort front)
    (hparent : f.parent? sort (names sort front).length = s.parentIn sort (number sort front))
    (hnests : sort.nests = true) :
    (∀ d ∈ s.given "parent", LiesIn f sort front d)
      ↔ ∃ name, ∀ d ∈ s.given "parent", d = .name name := by
  constructor
  · intro h
    cases hgiven : s.given "parent" with
    | nil => exact ⟨"", fun _ hd => nomatch hd⟩
    | cons d ds =>
      rw [hgiven] at h
      obtain ⟨name, i, -, hi, hlies⟩ := h d List.mem_cons_self
      -- Every parent attribute names what the declaration lies in, and one number has one name.
      refine ⟨name, fun d' hd' => ?_⟩
      obtain ⟨name', i', rfl, hi', hlies'⟩ := h d' hd'
      obtain rfl := Option.some.inj (hlies.symm.trans hlies')
      rw [eq_of_number hi hi']
  · rintro ⟨name, h⟩ d hd
    have hname : s.nameAttr? "parent" = some name := by
      obtain ⟨d', ds, hgiven⟩ := List.exists_cons_of_ne_nil (List.ne_nil_of_mem hd)
      have hd' : d' = .name name := h d' (hgiven ▸ List.mem_cons_self)
      rw [nameAttr?_eq_some, hgiven, hd', List.head?_cons]
    rw [Statement.parentIn_of_some hname hnests] at hparent
    cases hnumber : number sort front name with
    | none => exact absurd (hknown name hname) (number_eq_none.mp hnumber)
    | some i => exact ⟨name, i, h d hd, hnumber, hparent.trans hnumber⟩

/-- Every parent that is written in a list is kept. If the list is accepted, each item lies in the
one that its statement names. If the last statement gives a parent that is the name of no item
before it, that statement is refused with its line, whatever follows, unless a statement before it
is refused. -/
structure ParentsKept (ss : List Statement) : Prop where
  kept : ∀ fs, load ss = .ok fs → List.Forall₂ (fun x f => ∀ front s back sort,
    x.body = front ++ s :: back → s.keyword = sort.keyword → sort.nests = true →
    ∀ d ∈ s.given "parent", LiesIn f sort front d) (sections ss) fs
  refused : ∀ earlier s front sort, ss = earlier ++ [s] → Underway earlier front →
    s.keyword = sort.keyword → sort.nests = true →
    (∃ d ∈ s.given "parent", ∀ name ∈ names sort front, d ≠ .name name) → ∃ e, ∀ after,
      load (earlier ++ s :: after) = load earlier >>= fun _ => .error (.refused s.line e)

/-- What a section says of the parent of one of its items. -/
theorem liesIn_iff_of_load {x : Section} {f : Function} (h : x.load = .ok f)
    {front back : List Statement} {s : Statement} {sort : Declared}
    (hbody : x.body = front ++ s :: back) (hs : s.keyword = sort.keyword)
    (hnests : sort.nests = true) :
    (∀ d ∈ s.given "parent", LiesIn f sort front d)
      ↔ ∃ name, ∀ d ∈ s.given "parent", d = .name name := by
  obtain ⟨b, rfl, r⟩ := lists_of_load h
  obtain ⟨-, hknown, hparent⟩ := (r sort).has front s back hbody hs
  exact liesIn_iff (hknown hnests) hparent hnests

/-- Every parent that is written in a list is kept, unless the list is accepted and a statement
gives a parent that is no name, or two that are not one name. -/
theorem parentsKept_iff (ss : List Statement) : ParentsKept ss
    ↔ ∀ fs, load ss = .ok fs → ∀ x ∈ sections ss, ∀ s ∈ x.body, ∀ sort : Declared,
      s.keyword = sort.keyword → sort.nests = true →
      ∃ name, ∀ d ∈ s.given "parent", d = .name name := by
  constructor
  · intro hkept fs h x hx s hs sort hkeyword hnests
    obtain ⟨i, hi, rfl⟩ := List.getElem_of_mem hx
    obtain ⟨front, back, hbody⟩ := List.append_of_mem hs
    have hi' : i < fs.length := (forall₂_of_load h).length_eq ▸ hi
    refine (liesIn_iff_of_load ((forall₂_of_load h).get hi hi') hbody hkeyword hnests).mp ?_
    exact (hkept.kept fs h).get hi hi' front s back sort hbody hkeyword hnests
  · -- Conversely, one name for all parents is the parent that is read, and a name that is unknown
    -- is refused.
    intro hone
    constructor
    case kept =>
      intro fs h
      refine ((List.forall₂_and_left _ _).mpr ⟨hone fs h, forall₂_of_load h⟩).imp ?_
      rintro x f ⟨hall, hload⟩ front s back sort hbody hs hnests
      have hmem : s ∈ x.body := hbody ▸ List.mem_append_right front List.mem_cons_self
      exact (liesIn_iff_of_load hload hbody hs hnests).mpr (hall s hmem sort hs hnests)
    case refused =>
      rintro earlier s front sort rfl hunderway hs hnests ⟨d, hd, hunknown⟩
      refine exists_refusal fun fs h => ?_
      obtain ⟨x, hx, hbody⟩ := exists_section_of_underway hunderway (hs ▸ sort.keyword_ne_function)
      obtain ⟨f, hf, hload⟩ := exists_function_of_section h hx
      have hmem : s ∈ x.body := hbody ▸ List.mem_append_right front List.mem_cons_self
      have hall := hone fs h x hx s hmem sort hs hnests
      obtain ⟨name, i, rfl, hi, -⟩ := (liesIn_iff_of_load hload hbody hs hnests).mpr hall d hd
      refine hunknown name ?_ rfl
      by_contra hmem
      rw [number_eq_none.mpr hmem] at hi
      cases hi

/-- Declares an alias node `m`. -/
def outerNode : Statement := ⟨"alias", 2, [.name "m"], []⟩

/-- Declares an alias node `n` with the given parent. -/
def innerNode (d : Datum) : Statement := ⟨"alias", 3, [.name "n"], [("parent", d)]⟩

/-- A function with both nodes. -/
def twoNodes (d : Datum) : List Statement :=
  [⟨"function", 1, [.name "f"], []⟩, outerNode, innerNode d]

/-- The node `n` lies in `m` if its statement names `m`. -/
theorem parentsKept_twoNodes : (∃ f, load (twoNodes (.name "m")) = .ok [f]
    ∧ f.parent? .aliasNode 2 = some 1) ∧ ParentsKept (twoNodes (.name "m")) := by
  have hone : ∀ x ∈ sections (twoNodes (.name "m")), ∀ s ∈ x.body,
      ∀ d ∈ s.given "parent", d = .name "m" := by
    rintro _ (_ | ⟨_, ⟨⟩⟩) _ (_ | ⟨_, _ | ⟨_, ⟨⟩⟩⟩) d hd
    · cases hd
    · exact List.mem_singleton.mp hd
  exact ⟨⟨_, rfl, rfl⟩,
    (parentsKept_iff _).mpr fun _ _ x hx s hs _ _ _ => ⟨"m", hone x hx s hs⟩⟩

/-- A number is accepted as parent, and the node lies in the root. -/
theorem numeric_parent_dropped : ∃ f, load (twoNodes (.number 3)) = .ok [f]
    ∧ f.parent? .aliasNode 2 = some 0 ∧ ¬ParentsKept (twoNodes (.number 3)) := by
  refine ⟨_, rfl, rfl, fun h => ?_⟩
  cases h.kept _ rfl with
  | cons hkept _ =>
    obtain ⟨name, i, hname, -⟩ := hkept [outerNode] (innerNode (.number 3)) [] .aliasNode rfl rfl
      rfl (.number 3) List.mem_cons_self
    cases hname

end Facts

end Privatization
