import Privatization.Classification.Scope
import Privatization.Proofs.Collection.Folds

/-!
# Guarded runs

A guarded run stops where a number lies outside of what it is looked up in, and where a loop goes on
for more turns than it is allowed. The engine and its reports have guarded counterparts, which look
things up and climb as an implementation on arrays of records does. A counterpart has the name of
the definition it stands beside, and is to do the same. That it `Mirrors` the engine says that
neither stop ever happens: it ends as the engine does, with the same error or with a related result.

Results that do not depend on a state are told by equations `x = .ok a` instead. For loops there is
one rule, `loop_mirrors`: a claim about what is left to do, and a count of turns that falls.
-/

namespace Privatization

/-- Why a guarded run stops before its end. -/
inductive Stop where
  /-- A number lies outside of what it is looked up in. -/
  | outOfRange
  /-- A loop went on after the turns it is allowed. -/
  | endless
  /-- An error that is to be reported. -/
  | reported (e : ClassifyError)
  deriving DecidableEq

/-- A run that may stop early. -/
abbrev Guarded (α : Type) : Type := Except Stop α

namespace Guarded

variable {α α' β β' σ : Type}

/-- What was looked up. -/
def found : Option α → Guarded α
  | some a => .ok a
  | none => .error .outOfRange

/-- Takes turns from `s` on until one of them gives a result. -/
def loop (turn : σ → Guarded (σ ⊕ α)) : Nat → σ → Guarded α
  | 0, _ => .error .endless
  | turns + 1, s => do
    match ← turn s with
    | .inl s => loop turn turns s
    | .inr a => return a

/-- A run whose only stops are errors to report. -/
def report (x : Except ClassifyError α) : Guarded α := x.mapError .reported

/-- Both runs report the same error, or both end and their results are related. -/
inductive Mirrors (R : α → β → Prop) : Guarded α → Except ClassifyError β → Prop where
  | ok {a : α} {b : β} (h : R a b) : Mirrors R (.ok a) (.ok b)
  | error (e : ClassifyError) : Mirrors R (.error (.reported e)) (.error e)

/-! ## Runs one after the other -/

@[simp] theorem ok_bind (a : α) (f : α → Guarded β) : (Except.ok a : Guarded α) >>= f = f a := rfl

namespace Mirrors

variable {R : α → α' → Prop} {Q : β → β' → Prop} {x : Guarded α} {y : Except ClassifyError α'}

/-- Where runs mirror each other and go on so from related results, the whole runs do. -/
theorem bind {f : α → Guarded β} {g : α' → Except ClassifyError β'} (h : Mirrors R x y)
    (hnext : ∀ a b, R a b → Mirrors Q (f a) (g b)) : Mirrors Q (x >>= f) (y >>= g) := by
  cases h with
  | ok h => exact hnext _ _ h
  | error e => exact .error e

/-- The run that is mirrored ends, and something is made of its result. -/
theorem next {b : α'} {f : α → Guarded β} {y : Except ClassifyError β'} (h : Mirrors R x (.ok b))
    (hnext : ∀ a, R a b → Mirrors Q (f a) y) : Mirrors Q (x >>= f) y := by
  cases h with
  | ok h => exact hnext _ h

/-- A run that mirrors one with a result has a related result. -/
theorem exists_ok {b : α'} (h : Mirrors R x (.ok b)) : ∃ a, x = .ok a ∧ R a b := by
  cases h with
  | ok h => exact ⟨_, rfl, h⟩

/-- The relation between results may be weakened. -/
theorem mono {S : α → α' → Prop} (h : Mirrors R x y) (hRS : ∀ a b, R a b → S a b) :
    Mirrors S x y := by
  cases h with
  | ok h => exact .ok (hRS _ _ h)
  | error e => exact .error e

/-- A run that does nothing but report errors mirrors itself. -/
theorem report (y : Except ClassifyError α) : Mirrors Eq (report y) y := by
  cases y with
  | ok a => exact .ok rfl
  | error e => exact .error e

/-- A run with the same results as another is that one, its errors reported. -/
theorem eq_report {y : Except ClassifyError α} (h : Mirrors Eq x y) : x = Guarded.report y := by
  cases h with
  | ok h => rw [h]; rfl
  | error e => rfl

/-- Folds mirror each other if their steps do. -/
theorem foldlM {as : List σ} {f : α → σ → Guarded α} {g : α' → σ → Except ClassifyError α'}
    (hstep : ∀ s ∈ as, ∀ a b, R a b → Mirrors R (f a s) (g b s)) {a : α} {b : α'} (h : R a b) :
    Mirrors R (as.foldlM f a) (as.foldlM g b) := by
  induction as generalizing a b with
  | nil => exact .ok h
  | cons s as ih =>
    rw [List.foldlM_cons, List.foldlM_cons]
    refine (hstep s List.mem_cons_self a b h).bind fun a b hab => ?_
    exact ih (fun s hs => hstep s (List.mem_cons_of_mem _ hs)) hab

/-- A guarded fold mirrors one that cannot fail if its steps do. -/
theorem foldl {as : List σ} {f : α → σ → Guarded α} {g : α' → σ → α'}
    (hstep : ∀ s ∈ as, ∀ a b, R a b → Mirrors R (f a s) (.ok (g b s))) {a : α} {b : α'}
    (h : R a b) : Mirrors R (as.foldlM f a) (.ok (as.foldl g b)) := by
  induction as generalizing a b with
  | nil => exact .ok h
  | cons s as ih =>
    rw [List.foldlM_cons, List.foldl_cons]
    refine (hstep s List.mem_cons_self a b h).next fun a hab => ?_
    exact ih (fun s hs => hstep s (List.mem_cons_of_mem _ hs)) hab

end Mirrors

/-! ## Loops -/

/-- A loop gives `b` where `I` keeps telling that it will, and no turn is taken in vain. -/
theorem loop_mirrors {turn : σ → Guarded (σ ⊕ α)} {R : α → β → Prop} (I : σ → β → Prop)
    (left : σ → Nat)
    (hturn : ∀ s b, I s b → (∃ a, turn s = .ok (.inr a) ∧ R a b)
      ∨ ∃ s', turn s = .ok (.inl s') ∧ I s' b ∧ left s' < left s)
    {s : σ} {b : β} {turns : Nat} (h : I s b) (hturns : left s < turns) :
    Mirrors R (loop turn turns s) (.ok b) := by
  induction turns generalizing s with
  | zero => exact absurd hturns (Nat.not_lt_zero _)
  | succ turns ih =>
    rw [loop]
    rcases hturn s b h with ⟨a, ha, hR⟩ | ⟨s', hs', hI, hleft⟩
    · rw [ha]
      exact .ok hR
    · rw [hs']
      exact ih hI (by omega)

/-- The case where what the loop will give is known from its state. -/
theorem loop_eq {turn : σ → Guarded (σ ⊕ α)} (I : σ → Prop) (result : σ → α) (left : σ → Nat)
    (hturn : ∀ s, I s → turn s = .ok (.inr (result s))
      ∨ ∃ s', turn s = .ok (.inl s') ∧ I s' ∧ result s' = result s ∧ left s' < left s)
    {s : σ} {turns : Nat} (h : I s) (hturns : left s < turns) :
    loop turn turns s = .ok (result s) := by
  have hmirrors : Mirrors Eq (loop turn turns s) (.ok (result s)) := by
    refine loop_mirrors (fun s a => I s ∧ result s = a) left ?_ ⟨h, rfl⟩ hturns
    rintro s _ ⟨hI, rfl⟩
    rcases hturn s hI with hdone | ⟨s', hs', hI', hresult, hleft⟩
    · exact .inl ⟨result s, hdone, rfl⟩
    · exact .inr ⟨s', hs', ⟨hI', hresult⟩, hleft⟩
  exact hmirrors.eq_report

/-! ## Lists -/

section Lists

variable {as : List α}

/-- What is there is found. -/
theorem found_some (a : α) : found (some a) = .ok a := rfl

/-- What is looked up in range is found. -/
theorem exists_found {as : Array α} {i : Nat} (h : i < as.size) :
    ∃ a, as[i]? = some a ∧ found as[i]? = .ok a := by
  have ha : as[i]? = some as[i] := Array.getElem?_eq_getElem h
  exact ⟨as[i], ha, congrArg found ha⟩

/-- A guarded filter whose test always ends filters by that test. -/
theorem filterM_eq {p : α → Guarded Bool} {q : α → Bool} (h : ∀ a ∈ as, p a = .ok (q a)) :
    as.filterM p = .ok (as.filter q) := by
  -- The monadic filter collects what it keeps from behind, so the induction is over what was kept
  -- so far.
  have haux (kept : List α) :
      as.filterAuxM p kept = .ok ((as.filter q).reverse ++ kept) := by
    induction as generalizing kept with
    | nil => rfl
    | cons a as ih =>
      obtain ⟨ha, has⟩ := List.forall_mem_cons.mp h
      rw [List.filterAuxM, ha, ok_bind, ih has, List.filter_cons]
      cases q a <;> simp
  rw [List.filterM, haux []]
  show Except.ok ((as.filter q).reverse ++ []).reverse = _
  rw [List.append_nil, List.reverse_reverse]

/-- A search whose test succeeds everywhere is the search without failures. -/
theorem anyM_eq {p : α → Guarded Bool} {q : α → Bool} (h : ∀ a ∈ as, p a = .ok (q a)) :
    as.anyM p = .ok (as.any q) := by
  induction as with
  | nil => rfl
  | cons a as ih =>
    obtain ⟨ha, has⟩ := List.forall_mem_cons.mp h
    rw [List.anyM_cons, ha, ok_bind, ih has, List.any_cons]
    cases q a <;> rfl

/-- A check whose test succeeds everywhere is the check without failures. -/
theorem allM_eq {p : α → Guarded Bool} {q : α → Bool} (h : ∀ a ∈ as, p a = .ok (q a)) :
    as.allM p = .ok (as.all q) := by
  induction as with
  | nil => rfl
  | cons a as ih =>
    obtain ⟨ha, has⟩ := List.forall_mem_cons.mp h
    rw [List.allM_cons, ha, ok_bind, ih has, List.all_cons]
    cases q a <;> rfl

/-- A map whose function succeeds everywhere is the map without failures. -/
theorem mapM_eq {f : α → Guarded β} {g : α → β} (h : ∀ a ∈ as, f a = .ok (g a)) :
    as.mapM f = .ok (as.map g) := by
  induction as with
  | nil => rfl
  | cons a as ih =>
    obtain ⟨ha, has⟩ := List.forall_mem_cons.mp h
    rw [List.mapM_cons, ha, ok_bind, ih has]
    rfl

end Lists

end Guarded

end Privatization
