import Privatization.Proofs.Facts.Reading

/-!
# Reading goes on

Wherever a construct is found, reading goes on in the same text, and what is no empty sequence takes
up a character at least (`item_passes`). So the items behind a keyword end because nothing more is
found there, and not because their number was bounded (`items_ended`).
-/

namespace Privatization.Facts

namespace Cursor

variable {c d e : Cursor} {n : Nat}

/-- `d` stands in the text of `c`, at the same place or further on. -/
def Reaches (c d : Cursor) : Prop := ∃ n ≤ c.rest.length, d = c.advance n

/-- `d` stands in the text of `c`, further on. -/
def Passes (c d : Cursor) : Prop := c.Reaches d ∧ d.rest.length < c.rest.length

theorem Reaches.refl (c : Cursor) : c.Reaches c := ⟨0, Nat.zero_le _, advance_zero.symm⟩

/-- Going on twice is going on. -/
theorem Reaches.trans (h : c.Reaches d) (h' : d.Reaches e) : c.Reaches e := by
  obtain ⟨m, hm, rfl⟩ := h
  obtain ⟨n, hn, rfl⟩ := h'
  rw [rest_advance, List.length_drop] at hn
  exact ⟨m + n, by omega, advance_advance m n⟩

/-- Going on leaves no more text ahead. -/
theorem Reaches.length_le (h : c.Reaches d) : d.rest.length ≤ c.rest.length := by
  obtain ⟨n, -, rfl⟩ := h
  rw [rest_advance, List.length_drop]
  exact Nat.sub_le _ _

theorem Passes.trans (h : c.Passes d) (h' : d.Reaches e) : c.Passes e :=
  ⟨h.1.trans h', Nat.lt_of_le_of_lt h'.length_le h.2⟩

/-- Going on and then further is going further. -/
theorem Reaches.passes (h : c.Reaches d) (h' : d.Passes e) : c.Passes e :=
  ⟨h.trans h'.1, Nat.lt_of_lt_of_le h'.2 h.length_le⟩

/-- What lies behind a cursor and what lies ahead of it make up the text. -/
theorem Reaches.position_add (h : c.Reaches d) :
    d.position + d.rest.length = c.position + c.rest.length := by
  obtain ⟨n, hn, rfl⟩ := h
  show c.position + n + (c.rest.drop n).length = _
  rw [List.length_drop]
  omega

/-- The lines behind a cursor and the line feeds ahead of it are those of the text. -/
theorem Reaches.line_add (h : c.Reaches d) :
    d.line + d.rest.count '\n' = c.line + c.rest.count '\n' := by
  obtain ⟨n, -, rfl⟩ := h
  show c.line + (c.rest.take n).count '\n' + (c.rest.drop n).count '\n' = _
  rw [Nat.add_assoc, ← List.count_append, List.take_append_drop]

theorem length_run_le (c : Cursor) (p : Char → Bool) : (c.run p).length ≤ c.rest.length :=
  List.IsPrefix.length_le (List.takeWhile_prefix p)

theorem reaches_run (c : Cursor) (p : Char → Bool) : c.Reaches (c.advance (c.run p).length) :=
  ⟨_, c.length_run_le p, rfl⟩

/-- A step of a character or more goes further, as long as there is text. -/
theorem passes_advance (hpos : 0 < n) (hle : n ≤ c.rest.length) : c.Passes (c.advance n) := by
  refine ⟨⟨n, hle, rfl⟩, ?_⟩
  rw [rest_advance, List.length_drop]
  omega

/-- Blanks and a comment are skipped in the text. -/
theorem reaches_skip (c : Cursor) : c.Reaches c.skip := by
  unfold skip
  dsimp only
  split
  next => exact (c.reaches_run _).trans (reaches_run _ _)
  next => exact c.reaches_run _

/-- The cursor only moves forward over lines that hold nothing to read. -/
theorem reaches_skipLines (c : Cursor) (n : Nat) : c.Reaches (c.skipLines n) := by
  induction n generalizing c with
  | zero => exact .refl c
  | succ n ih =>
    unfold skipLines
    dsimp only
    split
    next ch cs hcs =>
      split
      next =>
        -- The line feed behind the blanks takes up a character.
        have hfeed : c.skip.Passes (c.skip.advance 1) := passes_advance Nat.one_pos (by simp [hcs])
        exact (c.reaches_skip.trans hfeed.1).trans (ih _)
      next => exact c.reaches_skip
    next => exact c.reaches_skip

end Cursor

namespace Grammar

variable {c c' : Cursor} {ch : Char} {p : Char → Bool} {cs : List Char} {r : Reading}

/-- A character that is found is the first one ahead. -/
theorem char_eq_some {u : Unit} (h : (char ch c).found = some (u, c')) :
    ∃ rest, c.rest = ch :: rest ∧ c' = c.advance 1 := by
  unfold char at h
  split at h
  next x rest hrest =>
    split at h
    next hx =>
      cases h
      exact ⟨rest, hx ▸ hrest, rfl⟩
    next => cases h
  next => cases h

theorem char_passes {u : Unit} (h : (char ch c).found = some (u, c')) : c.Passes c' := by
  obtain ⟨rest, hrest, rfl⟩ := char_eq_some h
  exact Cursor.passes_advance Nat.one_pos (by simp [hrest])

/-- A run that is found has a character. -/
theorem run1_passes (h : (run1 p c).found = some (cs, c')) : c.Passes c' := by
  obtain ⟨hne, rfl, rfl⟩ := run1_eq_some h
  exact Cursor.passes_advance (List.length_pos_iff.mpr hne) (c.length_run_le p)

/-- A name takes up a character. -/
theorem name_passes {s : String} (h : (name c).found = some (s, c')) : c.Passes c' := by
  unfold name at h
  simp only [Attempt.found_map, Attempt.found_named, Option.map_eq_some_iff, Prod.exists,
    Prod.mk.injEq] at h
  obtain ⟨cs, _, hrun, -, rfl⟩ := h
  exact run1_passes hrun

/-- A quoted text takes up its quotes. -/
theorem text_passes (h : (text c).found = some (r, c')) : c.Passes c' := by
  unfold text at h
  simp only [Attempt.found_named, Attempt.found_andThen, Attempt.found_map, Option.bind_eq_some_iff,
    Option.map_eq_some_iff, Prod.exists, Prod.mk.injEq] at h
  obtain ⟨_, c₁, hopen, _, _, hclose, -, rfl⟩ := h
  exact (char_passes hopen).trans ((c₁.reaches_run _).trans (char_passes hclose).1)

theorem extent_passes {size : Except StatementError (Option Nat)}
    (h : (extent c).found = some (size, c')) : c.Passes c' := by
  unfold extent at h
  simp only [Attempt.found_named, Attempt.found_orElse, Attempt.found_map, Option.or_eq_some_iff,
    Option.map_eq_some_iff, Prod.exists, Prod.mk.injEq] at h
  rcases h with ⟨ds, _, hdigits, -, rfl⟩ | ⟨-, _, _, hmark, -, rfl⟩
  · exact run1_passes hdigits
  · exact char_passes hmark

/-- A location takes up its name, its colon and its size. -/
theorem location_passes (h : (location c).found = some (r, c')) : c.Passes c' := by
  unfold location at h
  simp only [Attempt.found_named, Attempt.found_andThen, Attempt.found_map, Option.bind_eq_some_iff,
    Option.map_eq_some_iff, Prod.exists, Prod.mk.injEq] at h
  obtain ⟨base, c₁, hname, _, c₂, hcolon, size, _, hextent, -, rfl⟩ := h
  exact (name_passes hname).trans ((char_passes hcolon).1.trans (extent_passes hextent).1)

/-- A number takes up its digits, behind a sign or not. -/
theorem number_passes (h : (number c).found = some (r, c')) : c.Passes c' := by
  unfold number at h
  simp only [Attempt.found_named, Attempt.found_andThen, Option.bind_eq_some_iff, Prod.exists] at h
  obtain ⟨ds, c₁, hdigits, hnumber⟩ := h
  have hsign : ((c.rest.take 1).filter (· = '-')).length ≤ c.rest.length :=
    Nat.le_trans (List.length_filter_le _ _) (List.length_take_le' 1 c.rest)
  split at hnumber
  next =>
    cases hnumber
    exact Cursor.Reaches.passes ⟨_, hsign, rfl⟩ (run1_passes hdigits)
  next => cases hnumber

/-- A value other than a list takes up a character, of whichever form it is. -/
theorem single_passes (h : (single c).found = some (r, c')) : c.Passes c' := by
  unfold single at h
  simp only [Attempt.found_orElse, Attempt.found_map, Attempt.found_named, Option.or_eq_some_iff,
    Option.map_eq_some_iff, Prod.exists, Prod.mk.injEq] at h
  rcases h with h | ⟨-, h | ⟨-, h | ⟨-, ⟨_, _, hmark, -, rfl⟩ | ⟨-, s, _, hname, -, rfl⟩⟩⟩⟩
  · exact text_passes h
  · exact location_passes h
  · exact number_passes h
  · exact char_passes hmark
  · exact name_passes hname

/-- Induction on the nesting, for a value together with the further items of a list. -/
theorem datum_more_passes (n : Nat) :
    (∀ c r c', (datum n c).found = some (r, c') → c.Passes c')
      ∧ ∀ c rs c', (more n c).found = some (rs, c') → c.Reaches c' := by
  induction n with
  | zero =>
    constructor
    · intro c r c' h
      rw [datum] at h
      cases h
    · intro c rs c' h
      rw [more] at h
      cases h
      exact .refl c
  | succ n ih =>
    obtain ⟨hdatum, hmore⟩ := ih
    constructor
    · intro c r c' h
      rw [datum] at h
      simp only [Attempt.found_orElse, Attempt.found_named, Attempt.found_andThen,
        Attempt.found_map, Option.or_eq_some_iff, Option.bind_eq_some_iff, Option.map_eq_some_iff,
        Prod.exists, Prod.mk.injEq] at h
      -- A list takes up its brackets; what is between them goes on at least.
      rcases h with ⟨_, c₁, hopen, rs, c₂, hitems, _, c₃, hclose, -, rfl⟩ | ⟨-, h⟩
      · have hclosed : c₂.Reaches c₃ := c₂.reaches_skip.trans (char_passes hclose).1
        refine (char_passes hopen).trans (Cursor.Reaches.trans ?_ hclosed)
        split at hitems
        next =>
          cases hitems
          exact .refl _
        next d c₄ hfirst =>
          obtain ⟨⟨ds, c₅⟩, hothers, heq⟩ := Option.map_eq_some_iff.mp hitems
          cases heq
          exact (c₁.reaches_skip.passes (hdatum _ _ _ hfirst)).1.trans (hmore _ _ _ hothers)
      · exact single_passes h
    · intro c rs c' h
      rw [more] at h
      dsimp only at h
      split at h
      next =>
        cases h
        exact .refl c
      next d c₁ hnext =>
        obtain ⟨⟨ds, c₂⟩, hothers, heq⟩ := Option.map_eq_some_iff.mp h
        cases heq
        simp only [Attempt.found_andThen, Option.bind_eq_some_iff, Prod.exists] at hnext
        obtain ⟨_, c₃, hcomma, hd⟩ := hnext
        have hvalue : c₃.Passes c₁ := c₃.reaches_skip.passes (hdatum _ _ _ hd)
        exact (c.reaches_skip.trans (char_passes hcomma).1).trans
          (hvalue.1.trans (hmore _ _ _ hothers))

/-- A value takes up a character. -/
theorem datum_passes {n : Nat} (h : (datum n c).found = some (r, c')) : c.Passes c' :=
  (datum_more_passes n).1 c r c' h

/-- An item moves the cursor forward, since it ends with its value. -/
theorem item_passes {n : Nat} {i : Item} (h : (item n c).found = some (i, c')) : c.Passes c' := by
  unfold item at h
  simp only [Attempt.found_orElse, Attempt.found_named, Attempt.found_andThen, Attempt.found_map,
    Option.or_eq_some_iff, Option.bind_eq_some_iff, Option.map_eq_some_iff, Prod.exists,
    Prod.mk.injEq] at h
  rcases h with ⟨key, c₁, hkey, _, c₂, hequals, r, c₃, hvalue, -, rfl⟩ | ⟨-, r, _, hvalue, -, rfl⟩
  · have hbehind : c₁.Reaches c₂ := c₁.reaches_skip.trans (char_passes hequals).1
    have hread : c₂.Reaches c₃ := c₂.reaches_skip.trans (datum_passes hvalue).1
    exact (name_passes hkey).trans (hbehind.trans hread)
  · exact datum_passes hvalue

/-- Items may be none at all, so they only go on. -/
theorem items_reaches {n k : Nat} {is : List Item} (h : (items n k c).found = some (is, c')) :
    c.Reaches c' := by
  induction k generalizing c is with
  | zero =>
    cases h
    exact .refl _
  | succ k ih =>
    rw [items] at h
    dsimp only at h
    split at h
    next =>
      cases h
      exact .refl _
    next i c₁ hfirst =>
      obtain ⟨⟨is, c₂⟩, hothers, heq⟩ := Option.map_eq_some_iff.mp h
      cases heq
      exact (c.reaches_skip.passes (item_passes hfirst)).1.trans (ih hothers)

/-- Every item takes up a character, so a bound beyond the characters ahead is never met. -/
theorem items_ended {n k : Nat} {is : List Item} (h : (items n k c).found = some (is, c'))
    (hk : c.rest.length < k) : (item n c'.skip).found = none := by
  induction k generalizing c is with
  | zero => exact absurd hk (Nat.not_lt_zero _)
  | succ k ih =>
    rw [items] at h
    dsimp only at h
    split at h
    next hnone =>
      cases h
      exact hnone
    next i c₁ hfirst =>
      obtain ⟨⟨is, c₂⟩, hothers, heq⟩ := Option.map_eq_some_iff.mp h
      cases heq
      -- The bound falls by one and the text ahead by a character or more.
      have hshorter : c₁.rest.length < c.rest.length :=
        (c.reaches_skip.passes (item_passes hfirst)).2
      exact ih hothers (Nat.lt_of_lt_of_le hshorter (Nat.le_of_lt_succ hk))

/-- A statement takes up its keyword. -/
theorem statement_passes {n : Nat} {x : Except FactsError Statement}
    (h : (statement n c).found = some (x, c')) : c.Passes c' := by
  unfold statement at h
  simp only [Attempt.found_named, Attempt.found_andThen, Attempt.found_map, Option.bind_eq_some_iff,
    Option.map_eq_some_iff, Prod.exists, Prod.mk.injEq] at h
  obtain ⟨keyword, c₁, hkeyword, is, _, his, -, rfl⟩ := h
  exact (run1_passes hkeyword).trans (items_reaches his)

/-- Statements are read up to the end of the text, fewer of them than their bound. -/
theorem statements_reaches {n k : Nat} {xs : List (Except FactsError Statement)}
    (h : (statements n k c).found = some (xs, c')) :
    c.Reaches c' ∧ c'.rest = [] ∧ xs.length < k := by
  induction k generalizing c xs with
  | zero => cases h
  | succ k ih =>
    rw [statements] at h
    dsimp only at h
    split at h
    next x c₁ hfirst =>
      obtain ⟨⟨xs, c₂⟩, hothers, heq⟩ := Option.map_eq_some_iff.mp h
      cases heq
      obtain ⟨hreaches, hend, hlt⟩ := ih hothers
      have hfirst : c.Reaches c₁ := (c.reaches_skipLines n).trans (statement_passes hfirst).1
      exact ⟨hfirst.trans hreaches, hend, Nat.succ_lt_succ hlt⟩
    next =>
      split at h
      next hempty =>
        cases h
        exact ⟨c.reaches_skipLines n, List.isEmpty_iff.mp hempty, Nat.succ_pos k⟩
      next => cases h

end Grammar

end Privatization.Facts
