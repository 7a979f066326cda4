import Privatization.Facts.Grammar

/-!
# What is found at a cursor

What an attempt finds depends on the text ahead of the cursor only. Single characters, runs of
characters, names and numerals are found exactly where the text ahead begins with them: a run goes
as far as it can, so the text behind it must not begin with a character of the same kind (`Stops`).
-/

namespace Privatization.Facts

/-! ## Text ahead -/

/-- The text is at its end, or goes on with a character that fails `p`. -/
def Stops (p : Char → Bool) (cs : List Char) : Prop := ∀ ch ∈ cs.head?, p ch = false

section Stops

variable {p q : Char → Bool} {ch : Char} {cs rest : List Char}

@[simp] theorem stops_nil : Stops p [] := fun _ h => by cases h

@[simp] theorem stops_cons : Stops p (ch :: cs) ↔ p ch = false := by
  simp [Stops]

/-- What stops a class of characters stops every smaller one. -/
theorem Stops.imp (h : Stops p cs) (hqp : ∀ ch, q ch = true → p ch = true) : Stops q cs := by
  intro ch hch
  cases hq : q ch with
  | false => rfl
  | true => exact absurd (hqp ch hq) (by simp [h ch hch])

/-- Text stops a class if it begins with characters of another one that has nothing in common with
it. -/
theorem stops_append (hne : cs ≠ []) (hall : ∀ ch ∈ cs, q ch = true)
    (hqp : ∀ ch, q ch = true → p ch = false) : Stops p (cs ++ rest) := by
  obtain ⟨ch, cs', rfl⟩ := List.exists_cons_of_ne_nil hne
  exact stops_cons.mpr (hqp ch (hall ch List.mem_cons_self))

/-- A run is empty exactly where the text stops. -/
theorem takeWhile_eq_nil_iff : cs.takeWhile p = [] ↔ Stops p cs := by
  cases cs with
  | nil => simp
  | cons ch cs => cases hp : p ch <;> simp [hp]

/-- A run ends where the text behind it stops. -/
theorem takeWhile_append (hall : ∀ ch ∈ cs, p ch = true) (hstop : Stops p rest) :
    (cs ++ rest).takeWhile p = cs := by
  rw [List.takeWhile_append_of_pos hall, takeWhile_eq_nil_iff.mpr hstop, List.append_nil]

/-- All of a run is of its class. -/
theorem all_takeWhile (h : ch ∈ cs.takeWhile p) : p ch = true := by
  have := List.all_takeWhile (p := p) (l := cs)
  exact List.all_eq_true.mp this ch h

/-- Behind a run, the text stops. -/
theorem stops_dropWhile : Stops p (cs.dropWhile p) := by
  intro ch hch
  have h := List.head?_dropWhile_not p cs
  rw [Option.mem_def.mp hch] at h
  exact h

end Stops

namespace Cursor

variable {c : Cursor} {p : Char → Bool} {cs rest : List Char}

/-- A cursor at the start has the whole text ahead. -/
@[simp] theorem rest_start : (start cs).rest = cs := rfl

@[simp] theorem rest_advance (n : Nat) : (c.advance n).rest = c.rest.drop n := rfl

@[simp] theorem advance_zero : c.advance 0 = c := by
  simp [advance]

@[simp] theorem advance_advance (m n : Nat) : (c.advance m).advance n = c.advance (m + n) := by
  simp [advance, List.take_add, Nat.add_assoc]

/-- Behind what was read, the rest is ahead. -/
theorem rest_advance_length (h : c.rest = cs ++ rest) : (c.advance cs.length).rest = rest := by
  rw [rest_advance, h, List.drop_left]

/-- The run at a cursor is the part of its class that the text ahead begins with. -/
theorem run_eq (h : c.rest = cs ++ rest) (hall : ∀ ch ∈ cs, p ch = true) (hstop : Stops p rest) :
    c.run p = cs := by
  rw [run, h, takeWhile_append hall hstop]

/-- Where the text ahead stops, the run is empty. -/
theorem run_of_stops (h : Stops p c.rest) : c.run p = [] := takeWhile_eq_nil_iff.mpr h

/-- A run holds characters of its class only. -/
theorem mem_run {ch : Char} (h : ch ∈ c.run p) : p ch = true := all_takeWhile h

/-- The text ahead is its run and a rest that stops. -/
theorem exists_rest (c : Cursor) (p : Char → Bool) : ∃ rest, c.rest = c.run p ++ rest ∧ Stops p rest :=
  ⟨c.rest.dropWhile p, List.takeWhile_append_dropWhile.symm, stops_dropWhile⟩

/-- Characters that are skipped between the parts of a statement, or begin something that is. -/
def isSkipped (ch : Char) : Bool := isBlank ch || ch == '#'

/-- Where nothing is to be skipped, the cursor stays. -/
theorem skip_of_stops (h : Stops isSkipped c.rest) : c.skip = c := by
  have hblank : c.run isBlank = [] := run_of_stops (h.imp fun ch hch => by simp [isSkipped, hch])
  unfold skip
  rw [hblank, List.length_nil, advance_zero]
  dsimp only
  split
  next hhash => simp [hhash, isSkipped] at h
  next => rfl

/-- A single blank is skipped. -/
theorem skip_blank (h : c.rest = ' ' :: rest) (hstop : Stops isSkipped rest) :
    c.skip = c.advance 1 := by
  have hahead : c.rest = [' '] ++ rest := h
  have hblank : c.run isBlank = [' '] :=
    run_eq hahead (by simp [isBlank]) (hstop.imp fun ch hch => by simp [isSkipped, hch])
  have hrest : (c.advance 1).rest = rest := by simp [h]
  -- What is behind the blank begins no comment, so the skip ends there.
  unfold skip
  rw [hblank, List.length_singleton]
  dsimp only
  rw [hrest]
  split
  next => simp [isSkipped] at hstop
  next => rfl

end Cursor

/-! ## Attempts -/

namespace Attempt

variable {α β : Type} {x : Attempt α} {a : α} {c : Cursor}

@[simp] theorem found_succeed : (succeed a c).found = some (a, c) := rfl

@[simp] theorem found_fail : (fail : Attempt α).found = none := rfl

/-- What a mapped attempt finds is mapped, at the same cursor. -/
@[simp] theorem found_map (f : α → β) : (x.map f).found = x.found.map fun p => (f p.1, p.2) := rfl

/-- A name matters for errors only, not for what is found. -/
@[simp] theorem found_named (c : Cursor) : (x.named c).found = x.found := by
  unfold named
  cases hx : x.found with
  | none => rfl
  | some p => exact hx

/-- A sequence finds what its second part finds where the first one stopped. -/
@[simp] theorem found_andThen (f : α → Cursor → Attempt β) :
    (x.andThen f).found = x.found.bind fun p => (f p.1 p.2).found := by
  unfold andThen
  cases x.found <;> rfl

/-- A choice finds what its first part finds, and what the second finds where that is nothing. -/
@[simp] theorem found_orElse (y : Unit → Attempt α) :
    (x.orElse y).found = x.found.or (y ()).found := by
  unfold orElse
  cases hx : x.found with
  | none => rfl
  | some p => exact hx

end Attempt

namespace Grammar

variable {c c' : Cursor} {ch : Char} {p : Char → Bool} {cs rest : List Char}

/-! ### Characters and runs -/

/-- A character is found where the text ahead begins with it. -/
theorem char_found (h : c.rest = ch :: rest) : (char ch c).found = some ((), c.advance 1) := by
  simp [char, h]

/-- A character is not found where the text begins with another one or is at its end. -/
theorem char_none (h : Stops (· == ch) c.rest) : (char ch c).found = none := by
  unfold char
  split
  next x _ hx =>
    rw [hx, stops_cons, beq_eq_false_iff_ne] at h
    rw [if_neg h]
    rfl
  next => rfl

/-- A run of at least one character is found up to where the text stops. -/
theorem run1_found (h : c.rest = cs ++ rest) (hne : cs ≠ []) (hall : ∀ ch ∈ cs, p ch = true)
    (hstop : Stops p rest) : (run1 p c).found = some (cs, c.advance cs.length) := by
  unfold run1
  rw [Cursor.run_eq h hall hstop]
  cases cs with
  | nil => exact absurd rfl hne
  | cons ch cs => rfl

/-- No run is found where the text stops. -/
theorem run1_none (h : Stops p c.rest) : (run1 p c).found = none := by
  unfold run1
  rw [Cursor.run_of_stops h]
  rfl

/-- What a run is: the longest one. -/
theorem run1_eq_some (h : (run1 p c).found = some (cs, c')) :
    cs ≠ [] ∧ cs = c.run p ∧ c' = c.advance cs.length := by
  unfold run1 at h
  split at h
  next => cases h
  next hne =>
    cases h
    exact ⟨hne, rfl, rfl⟩

end Grammar

end Privatization.Facts
