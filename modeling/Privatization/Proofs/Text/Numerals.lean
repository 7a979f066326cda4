import Mathlib.Data.List.Induction
import Privatization.Text.Decimal

/-!
# What a numeral denotes

A numeral is a non-empty run of the ASCII digits, and a digit more makes ten times the value and the
digit (`Digits`). The readers accept the numerals within their limit, with what they denote, and
nothing else (`below?_eq_some_iff`, `word32?_eq_some_iff`).
-/

namespace Privatization

namespace Decimal

/-- A non-empty run of digits with its value. -/
inductive Digits : List Char → Nat → Prop where
  | single (d : Fin 10) : Digits [d.val.digitChar] d
  | snoc {cs : List Char} {n : Nat} (front : Digits cs n) (d : Fin 10) :
    Digits (cs ++ [d.val.digitChar]) (10 * n + d)

variable {cs : List Char} {limit n : Nat} {ch : Char}

/-! ## Digits -/

/-- Every digit is the character of a number below ten. -/
theorem exists_digitChar (h : ch.isDigit = true) : ∃ d : Fin 10, d.val.digitChar = ch := by
  have hrange : 48 ≤ ch.toNat ∧ ch.toNat ≤ 57 := by
    simpa [Char.isDigit, UInt32.le_iff_toNat_le] using h
  have hlt : ch.toNat - 48 < 10 := by omega
  refine ⟨⟨ch.toNat - 48, hlt⟩, Char.toNat_inj.mp ?_⟩
  rw [Nat.toNat_digitChar_of_lt_ten hlt]
  omega

/-- The character of a number below ten is a digit. -/
theorem isDigit_digitChar (d : Fin 10) : d.val.digitChar.isDigit = true := by
  rw [Nat.isDigit_digitChar, decide_eq_true_iff]
  exact d.isLt

/-- One digit denotes its number. -/
theorem ofDigitChars_singleton (d : Fin 10) : Nat.ofDigitChars 10 [d.val.digitChar] 0 = d := by
  rw [Nat.ofDigitChars_cons_digitChar_of_lt_ten d.isLt, Nat.ofDigitChars_nil, Nat.mul_zero,
    Nat.zero_add]

/-- A digit more makes ten times the value and the digit. -/
theorem ofDigitChars_concat (cs : List Char) (d : Fin 10) :
    Nat.ofDigitChars 10 (cs ++ [d.val.digitChar]) 0 = 10 * Nat.ofDigitChars 10 cs 0 + d := by
  rw [Nat.ofDigitChars_append, Nat.ofDigitChars_cons_digitChar_of_lt_ten d.isLt,
    Nat.ofDigitChars_nil]

/-- What the reader of numerals tests: there are digits and nothing else. -/
theorem natural?_eq_some : natural? cs = some n
    ↔ cs ≠ [] ∧ (∀ c ∈ cs, c.isDigit = true) ∧ Nat.ofDigitChars 10 cs 0 = n := by
  unfold natural?
  simp [and_assoc]

/-- A numeral is made of digits. -/
theorem Digits.isDigit (h : Digits cs n) : ∀ c ∈ cs, c.isDigit = true := by
  induction h with
  | single d =>
    intro c hc
    obtain rfl := List.mem_singleton.mp hc
    exact isDigit_digitChar d
  | snoc _ d ih =>
    intro c hc
    rcases List.mem_append.mp hc with hc | hc
    · exact ih c hc
    · obtain rfl := List.mem_singleton.mp hc
      exact isDigit_digitChar d

/-- Numerals are read, with what they denote, and nothing else is. -/
theorem natural?_eq_some_iff : natural? cs = some n ↔ Digits cs n := by
  rw [natural?_eq_some]
  constructor
  · rintro ⟨hne, hdigits, rfl⟩
    -- The value grows at the end of the numeral, so the induction takes the last digit off.
    induction cs using List.reverseRecOn with
    | nil => exact absurd rfl hne
    | append_singleton cs c ih =>
      obtain ⟨d, rfl⟩ := exists_digitChar (hdigits c (by simp))
      by_cases hcs : cs = []
      · rw [hcs, List.nil_append, ofDigitChars_singleton]
        exact .single d
      · rw [ofDigitChars_concat]
        exact .snoc (ih hcs fun c hc => hdigits c (List.mem_append_left _ hc)) d
  · intro h
    refine ⟨?_, h.isDigit, ?_⟩
    · cases h <;> simp
    · induction h with
      | single d => exact ofDigitChars_singleton d
      | snoc _ d ih => rw [ofDigitChars_concat, ih]

/-- A numeral is read within a limit if what it denotes is below. -/
theorem below?_eq_some_iff : below? limit cs = some n ↔ Digits cs n ∧ n < limit := by
  unfold below?
  rw [Option.filter_eq_some_iff, natural?_eq_some_iff, decide_eq_true_iff]

/-- What is read is below the limit. -/
theorem lt_of_below? (h : below? limit cs = some n) : n < limit := (below?_eq_some_iff.mp h).2

/-! ## The digits of a number -/

/-- The decimal form of a number is made of digits. -/
theorem isDigit_of_mem_toDigits (h : ch ∈ Nat.toDigits 10 n) : ch.isDigit = true :=
  Nat.isDigit_of_mem_toDigits (by decide) (by decide) h

/-- The decimal form of a number denotes it. -/
theorem digits_toDigits (n : Nat) : Digits (Nat.toDigits 10 n) n :=
  natural?_eq_some_iff.mp (natural?_toDigits n)

/-- The decimal form of a number below the limit is read again. -/
theorem below?_toDigits (h : n < limit) : below? limit (Nat.toDigits 10 n) = some n :=
  below?_eq_some_iff.mpr ⟨digits_toDigits n, h⟩

/-! ## Numerals of 32 bits -/

/-- The text is a numeral of 32 bits and denotes `n`. One plus may stand in front. -/
structure IsWord32 (cs : List Char) (n : Nat) : Prop where
  digits : ∃ ds, (cs = ds ∨ cs = '+' :: ds) ∧ Digits ds n
  lt : n < limit32

/-- Nothing but digits and a plus stands in a numeral of 32 bits. -/
theorem IsWord32.not_mem (h : IsWord32 cs n) (hdigit : ch.isDigit = false) (hplus : ch ≠ '+') :
    ch ∉ cs := by
  obtain ⟨ds, hcs, hds⟩ := h.digits
  have hout : ch ∉ ds := fun hmem => by
    rw [hds.isDigit ch hmem] at hdigit
    cases hdigit
  rcases hcs with rfl | rfl
  · exact hout
  · exact fun hmem => (List.mem_cons.mp hmem).elim hplus hout

/-- The reader accepts the numerals of 32 bits, with what they denote, and nothing else. -/
theorem word32?_eq_some_iff : word32? cs = some n ↔ IsWord32 cs n := by
  unfold word32?
  split
  next cs =>
    rw [below?_eq_some_iff]
    constructor
    · exact fun ⟨h, hlt⟩ => ⟨⟨cs, .inr rfl, h⟩, hlt⟩
    · rintro ⟨⟨ds, rfl | heq, h⟩, hlt⟩
      · -- A plus is no digit, so the text is not read as a whole.
        exact absurd (h.isDigit '+' List.mem_cons_self) (by decide)
      · obtain rfl := List.tail_eq_of_cons_eq heq
        exact ⟨h, hlt⟩
  next hplus =>
    rw [below?_eq_some_iff]
    constructor
    · exact fun ⟨h, hlt⟩ => ⟨⟨cs, .inl rfl, h⟩, hlt⟩
    · rintro ⟨⟨ds, rfl | rfl, h⟩, hlt⟩
      · exact ⟨h, hlt⟩
      · exact absurd rfl (hplus ds)

/-- The decimal form of a number of 32 bits is a numeral of 32 bits. -/
theorem isWord32_toDigits (h : n < limit32) : IsWord32 (Nat.toDigits 10 n) n :=
  ⟨⟨_, .inl rfl, digits_toDigits n⟩, h⟩

end Decimal

end Privatization
