import Privatization.Proofs.Collection.Folds
import Privatization.Proofs.Facts.Reading
import Privatization.Proofs.Text.Numerals

/-!
# Well-formed statements

A statement is well formed if every part of it has a written form that can be read again: keywords,
keys and names are non-empty runs of their characters, no name looks like a number, numbers and sizes
fit 64 bits and texts hold no double quote. Whatever is read from a text is well formed
(`wellFormed_of_parse`).
-/

namespace Privatization

namespace Decimal

variable {cs : List Char} {i : Int}

/-- A numeral with a sign is read as a number of 64 bits. -/
theorem bounds_of_signed64? (h : signed64? cs = some i) : -(limit63 : Int) ≤ i ∧ i < limit63 := by
  unfold signed64? at h
  split at h
  next cs =>
    obtain ⟨n, hn, rfl⟩ : ∃ n, below? (limit63 + 1) cs = some n ∧ -(n : Int) = i := by
      simpa [Option.bind_eq_some_iff] using h
    have hlt := lt_of_below? hn
    -- A minus allows for one number more.
    have hpos : 0 < limit63 := by decide
    omega
  next =>
    obtain ⟨n, hn, rfl⟩ : ∃ n, below? limit63 cs = some n ∧ (n : Int) = i := by
      simpa [Option.bind_eq_some_iff] using h
    have hlt := lt_of_below? hn
    omega

end Decimal

namespace Facts

open Decimal (limit63 limit64)

/-- A non-empty run of name characters. -/
structure IsName (s : String) : Prop where
  ne_nil : s.toList ≠ []
  all : ∀ ch ∈ s.toList, isNameChar ch = true

/-- Digits behind at most one minus. -/
def IsNumeral (cs : List Char) : Prop :=
  ∃ ds, ds ≠ [] ∧ (∀ ch ∈ ds, ch.isDigit = true) ∧ (cs = ds ∨ cs = '-' :: ds)

/-- The value can be written and read again. -/
inductive Datum.WellFormed : Datum → Prop where
  | name {s : String} (isName : IsName s) (notNumeral : ¬ IsNumeral s.toList) : WellFormed (.name s)
  | number {n : Int} (lower : -(limit63 : Int) ≤ n) (upper : n < limit63) : WellFormed (.number n)
  | text {s : String} (unquoted : '"' ∉ s.toList) : WellFormed (.text s)
  | location {base : String} {size : Option Nat} (isName : IsName base)
      (bound : ∀ n ∈ size, n < limit64) : WellFormed (.location base size)
  | list {ds : List Datum} (items : ∀ d ∈ ds, d.WellFormed) : WellFormed (.list ds)
  | unknown : WellFormed .unknown

/-- Every part of the statement can be written and read again. -/
structure Statement.WellFormed (s : Statement) : Prop where
  keyword_ne : s.keyword.toList ≠ []
  keyword : ∀ ch ∈ s.keyword.toList, ch.isAlpha = true
  positional : ∀ d ∈ s.positional, d.WellFormed
  keys : ∀ p ∈ s.attrs, IsName p.1
  values : ∀ p ∈ s.attrs, p.2.WellFormed

/-! ## Characters -/

/-- A digit may stand in a name. -/
theorem isNameChar_of_isDigit {ch : Char} (h : ch.isDigit = true) : isNameChar ch = true := by
  simp [isNameChar, Char.isAlphanum, h]

/-- A numeral is not empty. -/
theorem IsNumeral.ne_nil {cs : List Char} (h : IsNumeral cs) : cs ≠ [] := by
  obtain ⟨ds, hne, -, rfl | rfl⟩ := h
  · exact hne
  · exact List.cons_ne_nil _ _

/-- A numeral reads like a name. -/
theorem IsNumeral.isNameChar {cs : List Char} (h : IsNumeral cs) : ∀ ch ∈ cs, isNameChar ch = true := by
  obtain ⟨ds, -, hds, rfl | rfl⟩ := h
  · exact fun ch hch => isNameChar_of_isDigit (hds ch hch)
  · intro ch hch
    rcases List.mem_cons.mp hch with rfl | hch
    · decide
    · exact isNameChar_of_isDigit (hds ch hch)

/-! ## What is read -/

/-- What was read is well formed, unless a number in it is out of range. -/
def Reading.Sound (r : Reading) : Prop := ∀ d, r = .ok d → d.WellFormed

/-- The key is a name and the value is well formed. -/
structure Grammar.Item.Sound (i : Item) : Prop where
  key : ∀ k ∈ i.1, IsName k
  value : Reading.Sound i.2

namespace Grammar

variable {c c' : Cursor} {s : String} {r : Reading}

/-- A name that is found is the run of name characters ahead. -/
theorem name_eq_some (h : (name c).found = some (s, c')) :
    IsName s ∧ s.toList = c.run isNameChar ∧ c' = c.advance s.toList.length := by
  unfold name at h
  simp only [Attempt.found_map, Attempt.found_named, Option.map_eq_some_iff, Prod.exists] at h
  obtain ⟨cs, c₁, hrun, heq⟩ := h
  cases heq
  obtain ⟨hne, hcs, rfl⟩ := run1_eq_some hrun
  rw [String.toList_ofList]
  refine ⟨⟨?_, ?_⟩, hcs, rfl⟩
  · rwa [String.toList_ofList]
  · rw [String.toList_ofList, hcs]
    exact fun ch => Cursor.mem_run

/-- The sign of a number is split off its text. -/
theorem sign_append (cs : List Char) :
    (cs.take 1).filter (· = '-') ++ cs.drop ((cs.take 1).filter (· = '-')).length = cs
      ∧ ((cs.take 1).filter (· = '-') = [] ∨ (cs.take 1).filter (· = '-') = ['-']) := by
  cases cs with
  | nil => simp
  | cons ch cs =>
    by_cases hch : ch = '-'
    · simp [hch]
    · simp [hch]

/-- A number is found where the name characters ahead are a numeral. -/
theorem number_found (h : IsNumeral (c.run isNameChar)) :
    ∃ r, (number c).found = some (r, c.advance (c.run isNameChar).length)
      ∧ ∀ n, Decimal.signed64? (c.run isNameChar) = some n → r = .ok (.number n) := by
  obtain ⟨rest, hrest, hstop⟩ := c.exists_rest isNameChar
  generalize c.run isNameChar = cs at *
  obtain ⟨ds, hne, hds, hcs⟩ := h
  -- The digits end where the name characters end.
  have hdigits : Stops Char.isDigit rest := hstop.imp fun ch => isNameChar_of_isDigit
  have hsign : cs = (c.rest.take 1).filter (· = '-') ++ ds := by
    rcases hcs with rfl | rfl
    · obtain ⟨d, ds', rfl⟩ := List.exists_cons_of_ne_nil hne
      have hd : d ≠ '-' := by
        rintro rfl
        exact absurd (hds '-' List.mem_cons_self) (by decide)
      simp [hrest, hd]
    · simp [hrest]
  generalize hs : (c.rest.take 1).filter (· = '-') = sign at hsign
  have hahead : (c.advance sign.length).rest = ds ++ rest := by
    refine Cursor.rest_advance_length ?_
    rw [hrest, hsign, List.append_assoc]
  unfold number
  simp only [Attempt.found_named, Attempt.found_andThen, hs, run1_found hahead hne hds hdigits]
  have hrun : (c.advance cs.length).run isNameChar = [] :=
    Cursor.run_of_stops (by rwa [Cursor.rest_advance_length hrest])
  simp only [Option.bind_some, Cursor.advance_advance, ← List.length_append, ← hsign, hrun,
    Attempt.found_succeed]
  refine ⟨_, rfl, fun n hn => ?_⟩
  rw [hn]

/-- No number is found where the name characters ahead are no numeral. -/
theorem number_none (h : ¬ IsNumeral (c.run isNameChar)) : (number c).found = none := by
  rw [Option.eq_none_iff_forall_ne_some]
  rintro ⟨r, c'⟩ hfound
  refine h ?_
  unfold number at hfound
  simp only [Attempt.found_named, Attempt.found_andThen, Option.bind_eq_some_iff, Prod.exists]
    at hfound
  obtain ⟨ds, c₁, hrun, hnumber⟩ := hfound
  obtain ⟨hne, hds, rfl⟩ := run1_eq_some hrun
  split at hnumber
  next hnil =>
    -- No name character follows the number that was found, so its text is the whole run.
    obtain ⟨rest, hrest, -⟩ := (c.advance _).exists_rest Char.isDigit
    rw [← hds] at hrest
    have hstop : Stops isNameChar rest := by
      rwa [← Cursor.rest_advance_length hrest, ← takeWhile_eq_nil_iff]
    have hdigits : ∀ ch ∈ ds, ch.isDigit = true := by
      rw [hds]
      exact fun ch => Cursor.mem_run
    obtain ⟨hsplit, hsign⟩ := sign_append c.rest
    generalize (c.rest.take 1).filter (· = '-') = sign at *
    have hnumeral : IsNumeral (sign ++ ds) := by
      refine ⟨ds, hne, hdigits, ?_⟩
      rcases hsign with rfl | rfl
      · exact .inl rfl
      · exact .inr rfl
    have hahead : c.rest = (sign ++ ds) ++ rest := by
      rw [List.append_assoc, ← hrest, Cursor.rest_advance, hsplit]
    rwa [Cursor.run_eq hahead hnumeral.isNameChar hstop]
  next => cases hnumber

/-- A text that is read holds no double quote. -/
theorem text_sound (h : (text c).found = some (r, c')) : r.Sound := by
  unfold text at h
  simp only [Attempt.found_named, Attempt.found_andThen, Attempt.found_map, Option.bind_eq_some_iff,
    Option.map_eq_some_iff, Prod.exists, Prod.mk.injEq] at h
  obtain ⟨-, c₁, -, -, -, -, rfl, -⟩ := h
  rintro _ ⟨⟩
  refine .text fun hquote => ?_
  rw [String.toList_ofList] at hquote
  simpa using Cursor.mem_run hquote

/-- A number that is read fits its bits. -/
theorem number_sound (h : (number c).found = some (r, c')) : r.Sound := by
  unfold number at h
  simp only [Attempt.found_named, Attempt.found_andThen, Option.bind_eq_some_iff, Prod.exists] at h
  obtain ⟨ds, c₁, -, hnumber⟩ := h
  split at hnumber
  next =>
    cases hnumber
    intro d hd
    split at hd
    next n hn =>
      cases hd
      obtain ⟨hlower, hupper⟩ := Decimal.bounds_of_signed64? hn
      exact .number hlower hupper
    next => cases hd
  next => cases hnumber

/-- The size of a location that is read fits 64 bits. -/
theorem extent_sound {size : Except StatementError (Option Nat)} {o : Option Nat}
    (h : (extent c).found = some (size, c')) (hsize : size = .ok o) : ∀ n ∈ o, n < limit64 := by
  unfold extent at h
  simp only [Attempt.found_named, Attempt.found_orElse, Attempt.found_map, Option.or_eq_some_iff,
    Option.map_eq_some_iff, Option.map_eq_none_iff, Prod.exists, Prod.mk.injEq] at h
  rcases h with ⟨ds, c₁, -, rfl, -⟩ | ⟨-, -, -, -, rfl, -⟩
  · split at hsize
    next n hn =>
      cases hsize
      rintro _ ⟨⟩
      exact Decimal.lt_of_below? hn
    next => cases hsize
  · cases hsize
    rintro _ ⟨⟩

/-- A location that is read has a name, and its size fits its bits. -/
theorem location_sound (h : (location c).found = some (r, c')) : r.Sound := by
  unfold location at h
  simp only [Attempt.found_named, Attempt.found_andThen, Attempt.found_map, Option.bind_eq_some_iff,
    Option.map_eq_some_iff, Prod.exists, Prod.mk.injEq] at h
  obtain ⟨base, c₁, hname, -, c₂, -, size, c₃, hextent, rfl, -⟩ := h
  intro d hd
  obtain ⟨o, hsize, rfl⟩ := map_eq_ok hd
  exact .location (name_eq_some hname).1 (extent_sound hextent hsize)

/-- A value that is no list is well formed. -/
theorem single_sound (h : (single c).found = some (r, c')) : r.Sound := by
  unfold single at h
  simp only [Attempt.found_orElse, Attempt.found_map, Attempt.found_named, Option.or_eq_some_iff,
    Option.map_eq_some_iff, Prod.exists, Prod.mk.injEq] at h
  rcases h with h | ⟨-, h | ⟨-, h | ⟨hnumber, ⟨-, -, -, rfl, -⟩ | ⟨-, s, c₁, hname, rfl, -⟩⟩⟩⟩
  · exact text_sound h
  · exact location_sound h
  · exact number_sound h
  · rintro _ ⟨⟩
    exact .unknown
  · rintro _ ⟨⟩
    obtain ⟨hs, hrun, -⟩ := name_eq_some hname
    refine .name hs fun hnumeral => ?_
    -- Had the name been a numeral, a number would have been found.
    obtain ⟨r, hfound, -⟩ := number_found (hrun ▸ hnumeral)
    rw [hnumber] at hfound
    cases hfound

/-- A list of what was read is well formed if every item was read soundly. -/
theorem list_sound {rs : List Reading} (h : ∀ r ∈ rs, r.Sound) :
    Reading.Sound ((rs.mapM id).map .list) := by
  intro d hd
  obtain ⟨ds, hds, rfl⟩ := map_eq_ok hd
  refine .list fun d hd => ?_
  obtain ⟨r, hr, hrd⟩ := exists_of_mem_mapM hds hd
  exact h r hr d hrd

/-- Induction on the nesting, for a value together with the further items of a list. -/
theorem datum_more_sound (n : Nat) :
    (∀ c r c', (datum n c).found = some (r, c') → r.Sound)
      ∧ ∀ c rs c', (more n c).found = some (rs, c') → ∀ r ∈ rs, r.Sound := by
  induction n with
  | zero =>
    constructor
    · intro c r c' h
      rw [datum] at h
      cases h
    · intro c rs c' h
      rw [more] at h
      cases h
      exact fun r hr => absurd hr List.not_mem_nil
  | succ n ih =>
    -- Data and the rest of a list call each other, so both are proved together, on the fuel.
    obtain ⟨hdatum, hmore⟩ := ih
    constructor
    · intro c r c' h
      rw [datum] at h
      simp only [Attempt.found_orElse, Attempt.found_named, Attempt.found_andThen,
        Attempt.found_map, Option.or_eq_some_iff, Option.bind_eq_some_iff, Option.map_eq_some_iff,
        Prod.exists, Prod.mk.injEq] at h
      rcases h with ⟨-, c₁, -, rs, c₂, hitems, -, -, -, rfl, -⟩ | ⟨-, h⟩
      · refine list_sound ?_
        split at hitems
        next =>
          cases hitems
          exact fun r hr => absurd hr List.not_mem_nil
        next d c₃ hfirst =>
          obtain ⟨⟨ds, c₄⟩, hothers, heq⟩ := Option.map_eq_some_iff.mp hitems
          cases heq
          exact List.forall_mem_cons.mpr ⟨hdatum _ _ _ hfirst, hmore _ _ _ hothers⟩
      · exact single_sound h
    · intro c rs c' h
      rw [more] at h
      dsimp only at h
      split at h
      next =>
        cases h
        exact fun r hr => absurd hr List.not_mem_nil
      next d c₁ hnext =>
        obtain ⟨⟨ds, c₂⟩, hothers, heq⟩ := Option.map_eq_some_iff.mp h
        cases heq
        rw [Attempt.found_andThen, Option.bind_eq_some_iff] at hnext
        obtain ⟨p, -, hd⟩ := hnext
        exact List.forall_mem_cons.mpr ⟨hdatum _ _ _ hd, hmore _ _ _ hothers⟩

/-- A positional value or attribute that is read is well formed, with its key. -/
theorem item_sound {n : Nat} {i : Item} (h : (item n c).found = some (i, c')) : i.Sound := by
  unfold item at h
  simp only [Attempt.found_orElse, Attempt.found_named, Attempt.found_andThen, Attempt.found_map,
    Option.or_eq_some_iff, Option.bind_eq_some_iff, Option.map_eq_some_iff, Prod.exists,
    Prod.mk.injEq] at h
  rcases h with ⟨key, c₁, hkey, -, c₂, -, r, c₃, hvalue, rfl, -⟩ | ⟨-, r, c₁, hvalue, rfl, -⟩
  · refine ⟨?_, (datum_more_sound n).1 _ _ _ hvalue⟩
    rintro _ ⟨⟩
    exact (name_eq_some hkey).1
  · refine ⟨?_, (datum_more_sound n).1 _ _ _ hvalue⟩
    rintro _ ⟨⟩

/-- All the items of a statement that is read are sound. -/
theorem items_sound {n k : Nat} {is : List Item} (h : (items n k c).found = some (is, c')) :
    ∀ i ∈ is, i.Sound := by
  induction k generalizing c is with
  | zero =>
    cases h
    exact fun i hi => absurd hi List.not_mem_nil
  | succ k ih =>
    rw [items] at h
    dsimp only at h
    split at h
    next =>
      cases h
      exact fun i hi => absurd hi List.not_mem_nil
    next i c₁ hfirst =>
      obtain ⟨⟨is, c₂⟩, hothers, heq⟩ := Option.map_eq_some_iff.mp h
      cases heq
      exact List.forall_mem_cons.mpr ⟨item_sound hfirst, ih hothers⟩

/-- A statement made of sound items is well formed: its positional values and its attributes are
among them. -/
theorem statementOf_wellFormed {line : Nat} {keyword : List Char} {is : List Item} {s : Statement}
    (hne : keyword ≠ []) (hkeyword : ∀ ch ∈ keyword, ch.isAlpha = true) (his : ∀ i ∈ is, i.Sound)
    (h : statementOf line (String.ofList keyword) is = .ok s) : s.WellFormed := by
  unfold statementOf at h
  split at h
  next => cases h
  next ds hds =>
    cases h
    -- Keys and values are those of items that were read without error, and positional values are
    -- those without key.
    have hsound (p : Option String × Datum) (hp : p ∈ ds) : (∀ k ∈ p.1, IsName k) ∧ p.2.WellFormed := by
      obtain ⟨i, hi, hvalue⟩ := exists_of_mem_mapM hds hp
      unfold Item.value at hvalue
      split at hvalue
      next => cases hvalue; exact ⟨(his _ hi).key, (his _ hi).value _ rfl⟩
      next => cases hvalue
    constructor
    case keyword_ne => rwa [String.toList_ofList]
    case keyword => rwa [String.toList_ofList]
    case positional =>
      intro d hd
      obtain ⟨⟨key, d'⟩, hp, hpd⟩ := List.mem_filterMap.mp hd
      dsimp only at hpd
      split at hpd
      next =>
        cases hpd
        exact (hsound _ hp).2
      next => cases hpd
    case keys =>
      intro p hp
      obtain ⟨q, hq, hqp⟩ := List.mem_filterMap.mp hp
      obtain ⟨key, hkey, rfl⟩ := Option.map_eq_some_iff.mp hqp
      exact (hsound q hq).1 key hkey
    case values =>
      intro p hp
      obtain ⟨q, hq, hqp⟩ := List.mem_filterMap.mp hp
      obtain ⟨key, -, rfl⟩ := Option.map_eq_some_iff.mp hqp
      exact (hsound q hq).2

/-- A statement that is read is well formed. -/
theorem statement_sound {n : Nat} {x : Except FactsError Statement}
    (h : (statement n c).found = some (x, c')) : ∀ s, x = .ok s → s.WellFormed := by
  unfold statement at h
  simp only [Attempt.found_named, Attempt.found_andThen, Attempt.found_map, Option.bind_eq_some_iff,
    Option.map_eq_some_iff, Prod.exists, Prod.mk.injEq] at h
  obtain ⟨keyword, c₁, hkeyword, is, c₂, his, rfl, -⟩ := h
  obtain ⟨hne, hrun, -⟩ := run1_eq_some hkeyword
  intro s hs
  refine statementOf_wellFormed hne ?_ (items_sound his) hs
  rw [hrun]
  exact fun ch => Cursor.mem_run

/-- All the statements of a text that are read are well formed. -/
theorem statements_sound {n k : Nat} {xs : List (Except FactsError Statement)}
    (h : (statements n k c).found = some (xs, c')) : ∀ x ∈ xs, ∀ s, x = .ok s → s.WellFormed := by
  induction k generalizing c xs with
  | zero => cases h
  | succ k ih =>
    rw [statements] at h
    dsimp only at h
    split at h
    next x c₁ hfirst =>
      obtain ⟨⟨xs, c₂⟩, hothers, heq⟩ := Option.map_eq_some_iff.mp h
      cases heq
      exact List.forall_mem_cons.mpr ⟨statement_sound hfirst, ih hothers⟩
    next =>
      split at h
      next =>
        cases h
        exact fun x hx => absurd hx List.not_mem_nil
      next => cases h

end Grammar

/-- The statements that a text is read as are well formed. -/
theorem wellFormed_of_parse {text : String} {ss : List Statement} (h : parse text = .ok ss) :
    ∀ s ∈ ss, s.WellFormed := by
  unfold parse at h
  dsimp only at h
  split at h
  next xs _ hfound =>
    intro s hs
    obtain ⟨x, hx, hxs⟩ := exists_of_mem_mapM h hs
    exact Grammar.statements_sound hfound x hx s hxs
  next => cases h

end Facts

end Privatization
