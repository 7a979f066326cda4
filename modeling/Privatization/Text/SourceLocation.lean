import Privatization.Text.Decimal

/-!
# Source locations

A place in a source file, written `file:line:column`. The file part is whatever stands before the
last two colons, so it may hold colons of its own.
-/

namespace Privatization

/-- A line and column of a file. -/
structure SourceLocation where
  file : String
  line : Nat
  column : Nat
  deriving DecidableEq

/-- Splits a list at its last `c` into what stands before and after. -/
def splitAtLast (c : Char) (s : List Char) : Option (List Char × List Char) :=
  match s.reverse.dropWhile (· ≠ c) with
  | [] => none
  | _ :: front => some (front.reverse, (s.reverse.takeWhile (· ≠ c)).reverse)

namespace SourceLocation

instance : ToString SourceLocation := ⟨fun l => s!"{l.file}:{l.line}:{l.column}"⟩

/-- Reads `file:line:column`; line and column are 32-bit numerals. -/
def parse? (text : String) : Option SourceLocation := do
  let (front, column) ← splitAtLast ':' text.toList
  let (file, line) ← splitAtLast ':' front
  some ⟨String.ofList file, ← Decimal.word32? line, ← Decimal.word32? column⟩

end SourceLocation

end Privatization
