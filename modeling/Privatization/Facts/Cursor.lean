/-!
# Reading position

A cursor stands in a text. An attempt to read a construct either finds it and moves the cursor on,
or not; either way it reports the furthest position at which some named construct was tried in
vain, which is where a text that cannot be read is blamed.
-/

namespace Privatization.Facts

/-- A position in a text: how many characters lie behind it, its line, and what lies ahead. -/
structure Cursor where
  position : Nat
  line : Nat
  rest : List Char

namespace Cursor

/-- The start of a text. -/
def start (text : List Char) : Cursor := ⟨0, 1, text⟩

/-- The cursor moved over the first `n` characters ahead of it. -/
def advance (c : Cursor) (n : Nat) : Cursor :=
  ⟨c.position + n, c.line + (c.rest.take n).count '\n', c.rest.drop n⟩

/-- The characters ahead up to the first that fails `p`. -/
def run (c : Cursor) (p : Char → Bool) : List Char := c.rest.takeWhile p

/-- Blanks within a line. -/
def isBlank (ch : Char) : Bool := ch == ' ' || ch == '\t'

/-- Ends of line: a line feed, a carriage return, or one after the other. -/
def isLineEnd (ch : Char) : Bool := ch == '\n' || ch == '\r'

/-- Skips blanks and a comment, which runs from a hash sign to the end of the line. -/
def skip (c : Cursor) : Cursor :=
  let c := c.advance (c.run isBlank).length
  match c.rest with
  | '#' :: _ => c.advance (c.run (!isLineEnd ·)).length
  | _ => c

/-- Skips blanks, comments and line ends. The second argument bounds the number of lines. -/
def skipLines (c : Cursor) : Nat → Cursor
  | 0 => c
  | n + 1 =>
    let c := c.skip
    match c.rest with
    | ch :: _ => if isLineEnd ch then (c.advance 1).skipLines n else c
    | [] => c

end Cursor

/-- What became of trying to read a construct. -/
structure Attempt (α : Type) where
  found : Option (α × Cursor)
  /-- Furthest position at which a named construct was tried in vain. -/
  furthest : Nat

namespace Attempt

variable {α β : Type}

/-- Finds `a` and goes on at `c`. -/
def succeed (a : α) (c : Cursor) : Attempt α := ⟨some (a, c), 0⟩

/-- Finds nothing, without blaming a position. -/
def fail : Attempt α := ⟨none, 0⟩

/-- Goes on with what was found. -/
def andThen (x : Attempt α) (f : α → Cursor → Attempt β) : Attempt β :=
  match x.found with
  | none => ⟨none, x.furthest⟩
  | some (a, c) =>
    let y := f a c
    ⟨y.found, max x.furthest y.furthest⟩

/-- Tries `y` where `x` found nothing. -/
def orElse (x : Attempt α) (y : Unit → Attempt α) : Attempt α :=
  match x.found with
  | some _ => x
  | none =>
    let y := y ()
    ⟨y.found, max x.furthest y.furthest⟩

/-- Blames the position `c` of a named construct that is not found. -/
def named (c : Cursor) (x : Attempt α) : Attempt α :=
  match x.found with
  | some _ => x
  | none => ⟨none, max c.position x.furthest⟩

/-- Applies `f` to what was found. -/
def map (f : α → β) (x : Attempt α) : Attempt β := ⟨x.found.map fun (a, c) => (f a, c), x.furthest⟩

end Attempt

end Privatization.Facts
