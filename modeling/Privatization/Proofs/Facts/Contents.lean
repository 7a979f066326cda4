import Mathlib.Data.List.Forall2
import Mathlib.Data.List.Nodup
import Privatization.Proofs.Facts.Declarations
import Privatization.Proofs.Facts.Sections

/-!
# The contents of a section

What is read for a function is what the statements of its section declare (`lists_of_load`): as many
items of each sort, found under the names they have, each inside the one that its statement names.
The table of a sort is followed through the section, one declaration after the other.
-/

namespace Privatization.Facts

/-! ## One item -/

/-- The table has the item that a statement behind `front` declares. -/
structure Table.Has (t : Table) (sort : Declared) (front : List Statement) (s : Statement) :
    Prop where
  named : ∃ name, s.name? 0 = some name
  known : sort.nests = true → ∀ p, s.nameAttr? "parent" = some p → p ∈ names sort front
  parent? : t.parent? (names sort front).length = s.parentIn sort (number sort front)

/-- The table has what the statements declare. Only loops may share a name. -/
structure Table.Lists (t : Table) (sort : Declared) (body : List Statement) : Prop where
  size : t.size = (names sort body).length
  find? : t.find? = number sort body
  name? : sort.keepsName = true → ∀ i, t.name? i = (names sort body)[i]?
  nodup : sort ≠ .loop → (names sort body).Nodup
  has : ∀ front s back, body = front ++ s :: back → s.keyword = sort.keyword → t.Has sort front s

section Steps

variable {sort : Declared} {body : List Statement} {s : Statement} {b b' : Draft}

/-- A list that ends with `s` is cut at `s`, or at one of the statements before. -/
theorem cases_of_concat_eq {front back : List Statement} {s' : Statement}
    (h : body ++ [s] = front ++ s' :: back) :
    front = body ∧ s' = s ∨ ∃ back', body = front ++ s' :: back' := by
  rcases List.eq_nil_or_concat back with rfl | ⟨back', a, rfl⟩
  · obtain ⟨rfl, hs⟩ := List.append_inj' h rfl
    exact .inl ⟨rfl, (List.cons.inj hs).1.symm⟩
  · rw [List.concat_eq_append, ← List.cons_append, ← List.append_assoc] at h
    exact .inr ⟨back', (List.append_inj' h rfl).1⟩

/-- The item of a statement has a number that is in use. -/
theorem length_names_lt {front back : List Statement} (hbody : body = front ++ s :: back)
    (hs : s.keyword = sort.keyword) (hname : ∃ name, s.name? 0 = some name) :
    (names sort front).length < (names sort body).length := by
  obtain ⟨name, hname⟩ := hname
  rw [hbody, ← List.singleton_append, ← List.append_assoc, names_append,
    names_concat_of_declares front hs hname, List.length_append, List.length_append]
  exact Nat.lt_of_lt_of_le (Nat.lt_succ_self _) (Nat.le_add_right _ _)

/-- A statement that declares nothing of the sort leaves its table. -/
theorem Table.Lists.keep {t : Table} (r : t.Lists sort body) (hs : s.keyword ≠ sort.keyword) :
    t.Lists sort (body ++ [s]) := by
  constructor
  case size => rw [names_concat_of_ne body hs, r.size]
  case find? =>
    rw [r.find?]
    unfold number
    rw [names_concat_of_ne body hs]
  case name? =>
    rw [names_concat_of_ne body hs]
    exact r.name?
  case nodup =>
    rw [names_concat_of_ne body hs]
    exact r.nodup
  case has =>
    intro front s' back hbody hs'
    rcases cases_of_concat_eq hbody with ⟨-, rfl⟩ | ⟨back', hback⟩
    · exact absurd hs' hs
    · exact r.has front s' back' hback hs'

/-- A statement that declares an item appends it. -/
theorem Table.Lists.add {name : String} (r : (b.table sort).Lists sort body)
    (hs : s.keyword = sort.keyword) (d : b.Declares sort s name b') :
    (b'.table sort).Lists sort (body ++ [s]) := by
  have hnames := names_concat_of_declares body hs d.named
  have hfind : b.find? sort = number sort body := r.find?
  have hsize : (b.table sort).size = (names sort body).length := r.size
  rw [d.table sort, if_pos rfl, hfind]
  constructor
  case size =>
    rw [hnames, List.length_append, ← hsize]
    rfl
  case find? =>
    funext n
    rw [number_concat hnames, ← hsize, ← hfind]
    rfl
  case name? =>
    intro hkeeps i
    show (if i = (b.table sort).size then _ else (b.table sort).name? i) = _
    rw [hnames, r.name? hkeeps, hsize, if_pos hkeeps, List.getElem?_append]
    grind
  case nodup =>
    intro hsort
    have hnew := d.fresh hsort
    rw [hfind, number_eq_none] at hnew
    rw [hnames]
    exact List.nodup_append_comm.mpr (List.nodup_cons.mpr ⟨hnew, r.nodup hsort⟩)
  case has =>
    intro front s' back hbody hs'
    rcases cases_of_concat_eq hbody with ⟨rfl, rfl⟩ | ⟨back', hback⟩
    · refine ⟨⟨name, d.named⟩, fun hnests p hp => ?_, if_pos hsize.symm⟩
      obtain ⟨i, hi⟩ := d.known hnests p hp
      by_contra hmem
      rw [hfind, number_eq_none.mpr hmem] at hi
      cases hi
    · obtain ⟨hnamed, hknown, hparent⟩ := r.has front s' back' hback hs'
      -- Items that were there keep their parents: their numbers are below the new one.
      have hlt := length_names_lt hback hs' hnamed
      exact ⟨hnamed, hknown, (if_neg (by omega)).trans hparent⟩

end Steps

/-! ## A whole section -/

/-- A function without statements has what is there from the beginning. -/
theorem lists_new (name : String) (sort : Declared) :
    ((Draft.new name).table sort).Lists sort [] := by
  constructor
  case size => cases sort <;> rfl
  case find? =>
    funext n
    cases sort with
    | value => exact congrArg (Option.map ValueId.index) (congrArg _ Array.findIdx?_empty)
    | aliasNode =>
      show (if n = "top" then some 0 else none) = ["top"].idxOf? n
      rw [List.idxOf?_singleton]
      by_cases hn : n = "top"
      · simp [hn]
      · simp [hn, Ne.symm hn]
    | _ => rfl
  case name? =>
    intro hkeeps i
    cases sort <;> first | rfl | cases hkeeps
  case nodup =>
    intro _
    cases sort <;> decide
  case has =>
    intro front s back h
    cases front <;> cases h

/-- One statement more, whatever it declares. -/
theorem lists_step {b b' : Draft} {s : Statement} {body : List Statement}
    (r : ∀ sort, (b.table sort).Lists sort body) (h : b.step s = .ok b') (sort : Declared) :
    (b'.table sort).Lists sort (body ++ [s]) := by
  rcases step_declares s b' h with ⟨sort', hs, name, d⟩ | ⟨hs, hkeeps⟩
  · by_cases hsort : sort = sort'
    · subst hsort
      exact (r sort).add hs d
    · rw [d.table sort, if_neg hsort]
      exact (r sort).keep fun hs' => hsort (Declared.keyword_injective (hs'.symm.trans hs))
  · rw [hkeeps sort]
    exact (r sort).keep (hs sort)

/-- The draft of a section has what its statements declare. -/
theorem lists_of_run {name : String} {b : Draft} {body : List Statement}
    (h : (Draft.new name).run body = .ok b) : ∀ sort, (b.table sort).Lists sort body := by
  have hrun : ∀ sort, (b.table sort).Lists sort ([] ++ body) :=
    foldlM_outcome (P := fun done b => ∀ sort, (Draft.table b sort).Lists sort done)
      (lists_new name) (fun done s b b' r hs => lists_step r (mapError_eq_ok hs)) h
  exact hrun

/-- A function is read from a section by way of a draft that has what the section declares. -/
theorem lists_of_load {x : Section} {f : Function} (h : x.load = .ok f) :
    ∃ b : Draft, b.function = f ∧ ∀ sort, (b.table sort).Lists sort x.body := by
  obtain ⟨name, -, h⟩ := bind_eq_ok h
  obtain ⟨b, hb, h⟩ := bind_eq_ok h
  cases h
  exact ⟨b, rfl, lists_of_run hb⟩

/-! ## A whole list -/

/-- A list that is mapped without failure matches its results. -/
theorem forall₂_of_mapM {α β ε : Type} {f : α → Except ε β} {as : List α} {bs : List β}
    (h : as.mapM f = .ok bs) : List.Forall₂ (fun a b => f a = .ok b) as bs := by
  induction as generalizing bs with
  | nil =>
    cases h
    exact .nil
  | cons a as ih =>
    rw [List.mapM_cons] at h
    obtain ⟨b, hb, h⟩ := bind_eq_ok h
    obtain ⟨bs', hbs, h⟩ := bind_eq_ok h
    cases h
    exact .cons hb (ih hbs)

/-- A list that is accepted gives one function for each of its sections. -/
theorem forall₂_of_load {ss : List Statement} {fs : List Function} (h : load ss = .ok fs) :
    List.Forall₂ (fun x f => x.load = .ok f) (sections ss) fs := by
  have hopens : Opens ss := by
    intro s hs
    by_contra hne
    obtain ⟨others, rfl⟩ := List.head?_eq_some_iff.mp hs
    rw [load_of_outside hne] at h
    cases h
  rw [load_eq_mapM hopens] at h
  exact forall₂_of_mapM h

/-- Every section of an accepted list is read as one of its functions. -/
theorem exists_function_of_section {ss : List Statement} {fs : List Function} {x : Section}
    (h : load ss = .ok fs) (hx : x ∈ sections ss) : ∃ f ∈ fs, x.load = .ok f := by
  obtain ⟨i, hi, rfl⟩ := List.getElem_of_mem hx
  have hlength := (forall₂_of_load h).length_eq
  exact ⟨fs[i], List.getElem_mem _, (forall₂_of_load h).get hi (hlength ▸ hi)⟩

/-- Every function of an accepted list is read from one of its sections. -/
theorem exists_section_of_function {ss : List Statement} {fs : List Function} {f : Function}
    (h : load ss = .ok fs) (hf : f ∈ fs) : ∃ x ∈ sections ss, x.load = .ok f := by
  obtain ⟨i, hi, rfl⟩ := List.getElem_of_mem hf
  have hlength := (forall₂_of_load h).length_eq
  exact ⟨(sections ss)[i], List.getElem_mem _, (forall₂_of_load h).get (hlength ▸ hi) hi⟩

end Privatization.Facts
