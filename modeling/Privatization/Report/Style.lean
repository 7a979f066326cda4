/-!
# Lines and colours

How a listing is laid out: lines indented by a number of units, some of them coloured. Colours are
written as terminal escape sequences around the text; the indentation stays outside.
-/

namespace Privatization.Report

/-- The look of a coloured text. -/
inductive Style where
  | yellow
  | green
  | cyan
  | brightRed
  | boldBrightGreen
  | boldBrightRed
  deriving DecidableEq

namespace Style

/-- The parameters of the escape sequence that selects a style. -/
def code : Style → String
  | yellow => "33"
  | green => "32"
  | cyan => "36"
  | brightRed => "91"
  | boldBrightGreen => "1;92"
  | boldBrightRed => "1;91"

/-- The sequence that ends all styles. -/
def reset : String := "\x1b[0m"

/-- The sequence that begins a style. -/
def start (style : Style) : String := "\x1b[" ++ style.code ++ "m"

/-- A text in a style, or as it is where colours are off. Where the text itself ends all styles, the
style begins again. -/
def paint (colors : Bool) (style : Style) (text : String) : String :=
  if colors then
    style.start ++ (reset ++ style.start).intercalate (text.splitOn reset) ++ reset
  else text

end Style

/-- What one level of nesting is indented by. -/
inductive Indent where
  | spaces (n : Nat)
  | tabs
  deriving DecidableEq

/-- The text of one level of indentation. -/
def Indent.unit : Indent → String
  | spaces n => "".pushn ' ' n
  | tabs => "\t"

/-- Where a line is written: its level, the unit of indentation, and whether colours are on. -/
structure Layout where
  level : Nat := 0
  unit : String
  colors : Bool

namespace Layout

/-- The layout at another level. -/
def atLevel (l : Layout) (level : Nat) : Layout := { l with level }

/-- The indentation of a line. -/
def indentation (l : Layout) : String := String.join (List.replicate l.level l.unit)

/-- A line. -/
def line (l : Layout) (text : String) : String := l.indentation ++ text ++ "\n"

/-- A line whose text is coloured. -/
def paintedLine (l : Layout) (style : Style) (text : String) : String :=
  l.line (style.paint l.colors text)

/-- The heading of a section. -/
def heading (l : Layout) (title : String) : String :=
  l.paintedLine .cyan ("=== " ++ title ++ " ===")

end Layout

end Privatization.Report
