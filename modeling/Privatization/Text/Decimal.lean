/-!
# Decimal numerals

Numerals are runs of the ASCII digits. `natural?` reads them without any limit on the value;
`word32?`, `word64?` and `signed64?` add the limits of fields of so many bits. Main fact: reading the
digits of a number gives the number back (`natural?_toDigits`).
-/

namespace Privatization.Decimal

/-- One more than the largest number of 32 bits. -/
def limit32 : Nat := 0x100000000

/-- One more than the largest number of 63 bits. -/
def limit63 : Nat := 0x8000000000000000

/-- One more than the largest number of 64 bits. -/
def limit64 : Nat := 0x10000000000000000

/-- Reads a non-empty run of digits. -/
def natural? (cs : List Char) : Option Nat :=
  if !cs.isEmpty && cs.all Char.isDigit then some (Nat.ofDigitChars 10 cs 0) else none

/-- Reads a run of digits whose value is below `limit`. -/
def below? (limit : Nat) (cs : List Char) : Option Nat :=
  (natural? cs).filter (· < limit)

/-- Reads a numeral of at most 32 bits. One leading plus is allowed. -/
def word32? : List Char → Option Nat
  | '+' :: cs => below? limit32 cs
  | cs => below? limit32 cs

/-- Reads a numeral of at most 64 bits. -/
def word64? (cs : List Char) : Option Nat := below? limit64 cs

/-- Reads a signed numeral of 64 bits: digits behind at most one minus. -/
def signed64? : List Char → Option Int
  | '-' :: cs => (below? (limit63 + 1) cs).map fun n => -(n : Int)
  | cs => (below? limit63 cs).map fun n => (n : Int)

theorem natural?_toDigits (n : Nat) : natural? (Nat.toDigits 10 n) = some n := by
  have hne : (Nat.toDigits 10 n).isEmpty = false := by
    simp [Nat.toDigits_ne_nil]
  have hall : (Nat.toDigits 10 n).all Char.isDigit = true := by
    rw [List.all_eq_true]
    exact fun c hc => Nat.isDigit_of_mem_toDigits (by decide) (by decide) hc
  simp only [natural?, hne, hall, Bool.not_false, Bool.and_self, if_true]
  rw [Nat.ofDigitChars_toDigits (by decide) (by decide)]

theorem word64?_toDigits {n : Nat} (h : n < limit64) : word64? (Nat.toDigits 10 n) = some n := by
  simp only [word64?, below?, natural?_toDigits, Option.filter_some, decide_eq_true h, if_true]

end Privatization.Decimal
