import Privatization.Memory.Location

/-!
# Facts statements

A facts file is a list of statements. A statement is a keyword with positional values and
`key=value` attributes; the values are names, numbers, quoted texts, locations, lists of these, or
a question mark. `Datum.render` and `Statement.render` write them.
-/

namespace Privatization.Facts

/-- A value in a facts statement. -/
inductive Datum where
  | name (text : String)
  | number (n : Int)
  | text (s : String)
  /-- A name and a size, `none` for an unknown size. -/
  | location (name : String) (size : Option Nat)
  | list (items : List Datum)
  /-- A bare question mark. -/
  | unknown

namespace Datum

mutual

/-- The written form of a value. A text stands between double quotes as it is. -/
def render : Datum → String
  | name s => s
  | number n => toString n
  | text s => "\"" ++ s ++ "\""
  | location base size => base ++ ":" ++ showSize size
  | list items => "[" ++ renderItems items ++ "]"
  | unknown => "?"

/-- The written form of the items of a list. -/
def renderItems : List Datum → String
  | [] => ""
  | [d] => d.render
  | d :: e :: ds => d.render ++ ", " ++ renderItems (e :: ds)

end

instance : ToString Datum := ⟨render⟩

/-- The text of a name. -/
def name? : Datum → Option String
  | name s => some s
  | _ => none

/-- A number that is not negative. -/
def natural? : Datum → Option Nat
  | number (.ofNat n) => some n
  | _ => none

/-- The items of a list; any other value is read as a list of one. -/
def items : Datum → List Datum
  | list items => items
  | d => [d]

end Datum

/-- A statement with the line its keyword stands in. -/
structure Statement where
  keyword : String
  line : Nat
  positional : List Datum
  attrs : List (String × Datum)

namespace Statement

/-- The first value given to an attribute. -/
def attr? (s : Statement) (key : String) : Option Datum :=
  (s.attrs.find? (·.1 == key)).map Prod.snd

/-- The name given to an attribute; a value of another form counts as none. -/
def nameAttr? (s : Statement) (key : String) : Option String := (s.attr? key).bind Datum.name?

/-- Whether some positional value is the name `flag`. -/
def hasFlag (s : Statement) (flag : String) : Bool :=
  s.positional.any fun d => d.name? == some flag

/-- The written form of a statement: its parts with single blanks between them. -/
def render (s : Statement) : String :=
  " ".intercalate
    (s.keyword :: s.positional.map Datum.render
      ++ s.attrs.map fun (key, d) => key ++ "=" ++ d.render)

end Statement

end Privatization.Facts
