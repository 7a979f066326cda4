import Mathlib.Data.List.TakeWhile
import Privatization.Proofs.Text.Numerals
import Privatization.Text.SourceLocation

/-!
# The format of source locations

A text is read as a source location just when it is a file, a line and a column with a colon between
them, where line and column are numerals of 32 bits (`parse?_eq_some_iff`). The file may be any text,
with colons or empty: numerals have no colon, so the last two colons of the text are the two that
count. A location whose line and column fit 32 bits is read back from what is written for it
(`parse?_toString_iff`).
-/

namespace Privatization

/-- A list is split at the one `c` that has no `c` behind it. -/
theorem splitAtLast_eq_some_iff {c : Char} {s front back : List Char} :
    splitAtLast c s = some (front, back) ↔ s = front ++ c :: back ∧ c ∉ back := by
  unfold splitAtLast
  constructor
  · intro h
    split at h
    · cases h
    next c' rest hdrop =>
      cases h
      -- The text is read from its end, up to the first character that is the delimiter.
      have hhead := List.head?_dropWhile_not (· ≠ c) s.reverse
      have hsplit := List.takeWhile_append_dropWhile (p := (· ≠ c)) (l := s.reverse)
      rw [hdrop] at hhead hsplit
      obtain rfl : c' = c := by simpa using hhead
      constructor
      · have hs := congrArg List.reverse hsplit
        rw [List.reverse_append, List.reverse_cons, List.append_assoc, List.reverse_reverse] at hs
        exact hs.symm
      · intro hmem
        have hne := List.mem_takeWhile_imp (List.mem_reverse.mp hmem)
        simp at hne
  · rintro ⟨rfl, hback⟩
    have hpast : ∀ a ∈ back.reverse, decide (a ≠ c) = true := fun a ha =>
      decide_eq_true fun hac => hback (List.mem_reverse.mp (hac ▸ ha))
    rw [List.reverse_append, List.reverse_cons, List.append_assoc,
      List.dropWhile_append_of_pos hpast, List.takeWhile_append_of_pos hpast]
    simp

namespace SourceLocation

/-- The text is that of the location: its file, its line and its column between colons. -/
def WrittenAs (loc : SourceLocation) (text : String) : Prop :=
  ∃ line column : String, text = loc.file ++ ":" ++ line ++ ":" ++ column
    ∧ ':' ∉ line.toList ∧ ':' ∉ column.toList
    ∧ Decimal.IsWord32 line.toList loc.line ∧ Decimal.IsWord32 column.toList loc.column

/-- No numeral holds a colon, so the last two colons of a written location are its own. -/
theorem colon_not_mem {cs : List Char} {n : Nat} (h : Decimal.IsWord32 cs n) : ':' ∉ cs :=
  h.not_mem (by decide) (by decide)

/-- What a text with two colons is made of. -/
theorem eq_append_iff {text file line column : String} :
    text = file ++ ":" ++ line ++ ":" ++ column
      ↔ text.toList = (file.toList ++ ':' :: line.toList) ++ ':' :: column.toList := by
  rw [← String.toList_inj]
  simp

/-- A text is read as a location exactly if it is that location in written form. -/
theorem parse?_eq_some_iff {text : String} {loc : SourceLocation} :
    parse? text = some loc ↔ loc.WrittenAs text := by
  unfold parse?
  simp only [Option.bind_eq_bind, Option.bind_eq_some_iff, Prod.exists, Option.some.injEq,
    splitAtLast_eq_some_iff, Decimal.word32?_eq_some_iff]
  constructor
  · rintro ⟨_, column, ⟨htext, hcolumn⟩, file, line, ⟨rfl, hline⟩, l, hl, c, hc, rfl⟩
    refine ⟨String.ofList line, String.ofList column, eq_append_iff.mpr ?_, ?_⟩
    · simpa using htext
    · simp [hline, hcolumn, hl, hc]
  · rintro ⟨line, column, htext, hline, hcolumn, hl, hc⟩
    refine ⟨_, _, ⟨eq_append_iff.mp htext, hcolumn⟩, _, _, ⟨rfl, hline⟩, _, hl, _, hc, ?_⟩
    rw [String.ofList_toList]

theorem toString_eq (loc : SourceLocation) : toString loc
    = loc.file ++ ":" ++ toString loc.line ++ ":" ++ toString loc.column := rfl

/-- Numbers of 32 bits are written as numerals of 32 bits. -/
theorem isWord32_toString {n : Nat} (h : n < Decimal.limit32) :
    Decimal.IsWord32 (toString n).toList n := by
  have hdigits : (toString n).toList = Nat.toDigits 10 n := Nat.toList_repr
  rw [hdigits]
  exact Decimal.isWord32_toDigits h

/-- A location is read back from what is written for it just when its numbers fit 32 bits. -/
theorem parse?_toString_iff {loc : SourceLocation} : parse? (toString loc) = some loc
    ↔ loc.line < Decimal.limit32 ∧ loc.column < Decimal.limit32 := by
  rw [parse?_eq_some_iff]
  constructor
  · rintro ⟨line, column, -, -, -, hline, hcolumn⟩
    exact ⟨hline.lt, hcolumn.lt⟩
  · rintro ⟨hline, hcolumn⟩
    have hl := isWord32_toString hline
    have hc := isWord32_toString hcolumn
    exact ⟨_, _, toString_eq loc, colon_not_mem hl, colon_not_mem hc, hl, hc⟩

/-- Source locations are read in their written form alone, and every one whose numbers are those of
32 bits is read back. -/
theorem parse?_format : (∀ text loc, parse? text = some loc ↔ loc.WrittenAs text)
    ∧ ∀ (file : String) (line column : UInt32),
      parse? (toString (SourceLocation.mk file line.toNat column.toNat))
        = some ⟨file, line.toNat, column.toNat⟩ :=
  ⟨fun _ _ => parse?_eq_some_iff,
    fun _ line column => parse?_toString_iff.mpr ⟨line.toNat_lt, column.toNat_lt⟩⟩

/-- Colons of the file, a plus and zeros in front of a number. -/
example : parse? "a:b.c:+007:0" = some ⟨"a:b.c", 7, 0⟩ := by decide

end SourceLocation

end Privatization
