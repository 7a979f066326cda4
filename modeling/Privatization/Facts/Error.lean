import Privatization.Program.ModelError

/-!
# Errors in facts files

Why a facts text is refused, with one wording for each cause. A text that does not have the form of
a list of statements is refused at a position; everything else is tied to a statement and its line.
-/

namespace Privatization.Facts

/-- What a statement declares under a name. -/
inductive Declared where
  | value
  | instruction
  | aliasNode
  | estimate
  | loop
  deriving DecidableEq

/-- The noun for a declaration. -/
def Declared.noun : Declared → String
  | value => "value"
  | instruction => "instruction"
  | aliasNode => "alias node"
  | estimate => "estimate memory"
  | loop => "loop"

/-- A fixed set of words that a statement chooses from. -/
inductive Vocabulary where
  | statement
  | valueKind
  | operation
  | aliasNodeKind
  | dependenceKind
  | direction
  | distance
  | modRefKind
  deriving DecidableEq

/-- The noun for a word of the set. -/
def Vocabulary.noun : Vocabulary → String
  | statement => "statement"
  | valueKind => "value kind"
  | operation => "operation"
  | aliasNodeKind => "alias node kind"
  | dependenceKind => "dependence kind"
  | direction => "direction"
  | distance => "distance"
  | modRefKind => "mod/ref kind"

/-- Why a statement is refused. -/
inductive StatementError where
  /-- The number does not fit 64 bits. -/
  | numberOutOfRange (text : String)
  /-- The size of a location does not fit 64 bits. -/
  | sizeOutOfRange (digits : String)
  | outsideFunction (keyword : String)
  | expectsName (keyword what : String)
  | declaredTwice (sort : Declared) (name : String)
  | undeclared (sort : Declared) (name : String)
  | unknownWord (vocabulary : Vocabulary) (word : String)
  | missingAttr (keyword key : String)
  | notNatural (what : String)
  | tooLarge (what : String)
  | loadWithoutSource
  | notLocation (found : String)
  | notQuoted (key : String)
  | malformedSource (text : String)
  | missingOperand (label : String)
  | notPointerName (found : String)
  | notInstruction (found : String)
  | notValue (found : String)
  | missingFlowNode
  | missingLocation
  /-- The alias tree or the loop nest refuses what the statement adds. -/
  | model (cause : ModelError)
  deriving DecidableEq

/-- The wording of a statement error. -/
def StatementError.message : StatementError → String
  | numberOutOfRange text => s!"number out of range: {text}"
  | sizeOutOfRange digits => s!"size out of range: {digits}"
  | outsideFunction keyword => s!"{keyword} outside of a function"
  | expectsName keyword what => s!"{keyword} expects a {what} name"
  | declaredTwice sort name => s!"{sort.noun} {name} is declared twice"
  | undeclared sort name => s!"unknown {sort.noun} {name}"
  | unknownWord vocabulary word => s!"unknown {vocabulary.noun} {word}"
  | missingAttr keyword key => s!"{keyword} is missing {key}="
  | notNatural what => s!"{what} must be a non-negative number"
  | tooLarge what => s!"{what} is too large"
  | loadWithoutSource => "a loaded pointer needs from="
  | notLocation found => s!"expected a location, found {found}"
  | notQuoted key => s!"{key} must be a quoted file:line:column"
  | malformedSource text => s!"malformed source location {text}"
  | missingOperand label => s!"{label} is missing an operand"
  | notPointerName found => s!"{found} is not a pointer name"
  | notInstruction found => s!"{found} is not an instruction"
  | notValue found => s!"{found} is not a value"
  | missingFlowNode => "reach expects a data-flow node"
  | missingLocation => "modref expects a location"
  | model cause => cause.message

/-- Why a facts text is refused. -/
inductive FactsError where
  /-- The text has not the form of a list of statements; the position is the furthest one at which
  some part of the form was expected in vain. -/
  | malformed (line column : Nat)
  /-- The statement in a line is refused. -/
  | refused (line : Nat) (cause : StatementError)
  deriving DecidableEq

/-- The wording of an error in a facts text. -/
def FactsError.message : FactsError → String
  | malformed line column => s!"Syntax error: line {line}, column {column}"
  | refused line cause => s!"Line {line}: {cause.message}"

end Privatization.Facts
