import Privatization.Facts.Cursor
import Privatization.Facts.Datum
import Privatization.Facts.Error
import Privatization.Text.Decimal

/-!
# The form of facts files

Statements stand on lines of their own. A hash sign starts a comment that runs to the end of the
line. `parse` reads a whole text; a text that has not this form is refused at the furthest position
where a construct was expected in vain, and otherwise the first number that does not fit 64 bits is
reported.
-/

namespace Privatization.Facts

/-- Characters of names. -/
def isNameChar (ch : Char) : Bool :=
  ch.isAlphanum || ch == '_' || ch == '.' || ch == '%' || ch == '$' || ch == '@' || ch == '-'

/-- A value as read, or the number in it that is out of range. -/
abbrev Reading := Except StatementError Datum

namespace Grammar

/-- A single character. -/
def char (ch : Char) (c : Cursor) : Attempt Unit :=
  match c.rest with
  | x :: _ => if x = ch then .succeed () (c.advance 1) else .fail
  | [] => .fail

/-- The longest non-empty run of characters that pass `p`. -/
def run1 (p : Char → Bool) (c : Cursor) : Attempt (List Char) :=
  match c.run p with
  | [] => .fail
  | cs => .succeed cs (c.advance cs.length)

/-- A name. -/
def name (c : Cursor) : Attempt String :=
  ((run1 isNameChar c).named c).map String.ofList

/-- A text between double quotes. It may hold line ends, but no double quote. -/
def text (c : Cursor) : Attempt Reading :=
  .named c <| (char '"' c).andThen fun _ c =>
    let cs := c.run (· ≠ '"')
    (char '"' (c.advance cs.length)).map fun _ => .ok (.text (String.ofList cs))

/-- The size of a location: digits or a question mark. -/
def extent (c : Cursor) : Attempt (Except StatementError (Option Nat)) :=
  .named c <|
    ((run1 Char.isDigit c).map fun ds =>
      match Decimal.word64? ds with
      | some n => .ok (some n)
      | none => .error (.sizeOutOfRange (String.ofList ds))).orElse fun _ =>
    (char '?' c).map fun _ => .ok none

/-- A name and a size with a colon, and nothing else, between them. -/
def location (c : Cursor) : Attempt Reading :=
  .named c <| (name c).andThen fun base c =>
    (char ':' c).andThen fun _ c =>
      (extent c).map fun size => size.map (.location base)

/-- A whole number: digits behind at most one minus, and no name character after them. -/
def number (c : Cursor) : Attempt Reading :=
  .named c <|
    let sign := (c.rest.take 1).filter (· = '-')
    (run1 Char.isDigit (c.advance sign.length)).andThen fun ds c =>
      match c.run isNameChar with
      | [] =>
        .succeed
          (match Decimal.signed64? (sign ++ ds) with
            | some n => .ok (.number n)
            | none => .error (.numberOutOfRange (String.ofList (sign ++ ds)))) c
      | _ => .fail

/-- A value that is no list. -/
def single (c : Cursor) : Attempt Reading :=
  (text c).orElse fun _ =>
  (location c).orElse fun _ =>
  (number c).orElse fun _ =>
  (((char '?' c).named c).map fun _ => .ok .unknown).orElse fun _ =>
  (name c).map fun s => .ok (.name s)

mutual

/-- A value. Lists nest at most as deep as the first argument. -/
def datum : Nat → Cursor → Attempt Reading
  | 0, _ => .fail
  | n + 1, c =>
    (Attempt.named c <| (char '[' c).andThen fun _ c =>
      let first := datum n c.skip
      let items : Attempt (List Reading) :=
        match first.found with
        | none => ⟨some ([], c), first.furthest⟩
        | some (d, c) =>
          let others := more n c
          ⟨others.found.map fun (ds, c) => (d :: ds, c), max first.furthest others.furthest⟩
      items.andThen fun ds c =>
        (char ']' c.skip).map fun _ => (ds.mapM id).map .list).orElse fun _ =>
    single c

/-- The further items of a list, each behind a comma. -/
def more : Nat → Cursor → Attempt (List Reading)
  | 0, c => .succeed [] c
  | n + 1, c =>
    let next := (char ',' c.skip).andThen fun _ c => datum n c.skip
    match next.found with
    | none => ⟨some ([], c), next.furthest⟩
    | some (d, c) =>
      let others := more n c
      ⟨others.found.map fun (ds, c) => (d :: ds, c), max next.furthest others.furthest⟩

end

/-- An attribute, or a positional value, which has no key. -/
abbrev Item := Option String × Reading

/-- An attribute or a positional value. The first argument bounds the nesting of lists. -/
def item (n : Nat) (c : Cursor) : Attempt Item :=
  (Attempt.named c <| (name c).andThen fun key c =>
    (char '=' c.skip).andThen fun _ c =>
      (datum n c.skip).map fun d => (some key, d)).orElse fun _ =>
  (datum n c).map fun d => (none, d)

/-- Items as long as there are any. The second argument bounds their number. -/
def items (n : Nat) : Nat → Cursor → Attempt (List Item)
  | 0, c => .succeed [] c
  | k + 1, c =>
    let first := item n c.skip
    match first.found with
    | none => ⟨some ([], c), first.furthest⟩
    | some (i, c) =>
      let others := items n k c
      ⟨others.found.map fun (is, c) => (i :: is, c), max first.furthest others.furthest⟩

/-- The value of an item with its key, or the number in it that is out of range. -/
def Item.value : Item → Except StatementError (Option String × Datum)
  | (key, .ok d) => .ok (key, d)
  | (_, .error e) => .error e

/-- A statement, or the first number in it that is out of range. -/
def statementOf (line : Nat) (keyword : String) (is : List Item) : Except FactsError Statement :=
  match is.mapM Item.value with
  | .error e => .error (.refused line e)
  | .ok ds =>
    .ok {
      keyword, line
      positional := ds.filterMap fun (key, d) => if key.isNone then some d else none
      attrs := ds.filterMap fun (key, d) => key.map fun key => (key, d) }

/-- A statement. The first argument bounds its length. -/
def statement (n : Nat) (c : Cursor) : Attempt (Except FactsError Statement) :=
  .named c <| ((run1 Char.isAlpha c).named c).andThen fun keyword after =>
    (items n n after).map (statementOf c.line (String.ofList keyword))

/-- Statements up to the end of the text. The first argument bounds the length of the text and the
second the number of statements. -/
def statements (n : Nat) : Nat → Cursor → Attempt (List (Except FactsError Statement))
  | 0, _ => .fail
  | k + 1, c =>
    let c := c.skipLines n
    let first := statement n c
    match first.found with
    | some (s, c) =>
      let others := statements n k c
      ⟨others.found.map fun (ss, c) => (s :: ss, c), max first.furthest others.furthest⟩
    | none => if c.rest.isEmpty then ⟨some ([], c), first.furthest⟩
      else ⟨none, max c.position first.furthest⟩

end Grammar

/-- Line and column of a position, both counted from 1. Only a line feed starts a new line. -/
def lineColumn (text : List Char) (position : Nat) : Nat × Nat :=
  let before := text.take position
  (1 + before.count '\n', 1 + (before.reverse.takeWhile (· ≠ '\n')).length)

/-- Reads the statements of a text. -/
def parse (text : String) : Except FactsError (List Statement) :=
  let cs := text.toList
  let n := cs.length + 1
  let whole := Grammar.statements n n (.start cs)
  match whole.found with
  | some (ss, _) => ss.mapM id
  | none =>
    let (line, column) := lineColumn cs whole.furthest
    .error (.malformed line column)

end Privatization.Facts
