/-!
# JSON

JSON values with their fields in order, and the form they are written in: two blanks of
indentation per level, one item to a line, and nothing between the brackets of an empty value.
-/

namespace Privatization.Report

/-- A JSON value. -/
inductive Json where
  | null
  | number (n : Nat)
  | string (s : String)
  | array (items : List Json)
  | object (fields : List (String × Json))

namespace Json

/-- A hexadecimal digit in lower case. -/
def hexDigit (n : Nat) : Char := Nat.digitChar (n % 16)

/-- The written form of a character inside a string. Only the double quote, the backslash and
control characters are escaped. -/
def escapeChar (c : Char) : String :=
  match c with
  | '"' => "\\\""
  | '\\' => "\\\\"
  | '\n' => "\\n"
  | '\r' => "\\r"
  | '\t' => "\\t"
  | '\x08' => "\\b"
  | '\x0c' => "\\f"
  | c =>
    if c.toNat < 0x20 then
      "\\u00" ++ String.ofList [hexDigit (c.toNat / 16), hexDigit c.toNat]
    else c.toString

/-- The written form of a string. -/
def quote (s : String) : String := "\"" ++ String.join (s.toList.map escapeChar) ++ "\""

/-- The indentation of a level. -/
def margin (level : Nat) : String := "".pushn ' ' (2 * level)

mutual

/-- The written form of a value at a level of nesting. -/
def render (level : Nat) : Json → String
  | null => "null"
  | number n => toString n
  | string s => quote s
  | array [] => "[]"
  | array (j :: js) =>
    "[\n" ++ renderItems (level + 1) (j :: js) ++ "\n" ++ margin level ++ "]"
  | object [] => "\x7b\x7d"
  | object (f :: fs) =>
    "\x7b\n" ++ renderFields (level + 1) (f :: fs) ++ "\n" ++ margin level ++ "\x7d"

/-- The written form of the items of an array, a line or more each. -/
def renderItems (level : Nat) : List Json → String
  | [] => ""
  | [j] => margin level ++ render level j
  | j :: k :: js => margin level ++ render level j ++ ",\n" ++ renderItems level (k :: js)

/-- The written form of the fields of an object, a line or more each. -/
def renderFields (level : Nat) : List (String × Json) → String
  | [] => ""
  | [(k, j)] => margin level ++ quote k ++ ": " ++ render level j
  | (k, j) :: f :: fs =>
    margin level ++ quote k ++ ": " ++ render level j ++ ",\n" ++ renderFields level (f :: fs)

end

/-- The written form of a value, without a line end after it. -/
def pretty (j : Json) : String := j.render 0

/-- The strings of a list. -/
def strings (ss : List String) : Json := array (ss.map string)

/-- A field that is left out where there is no value. -/
def optional (key : String) : Option Json → List (String × Json)
  | some j => [(key, j)]
  | none => []

end Json

end Privatization.Report
