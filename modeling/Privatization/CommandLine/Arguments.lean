import Privatization.Report.Listing

/-!
# Arguments

What the words behind the name of the program ask for. Each word is an operand, or it names
settings: a whole name behind two hyphens, letters behind one. The words are taken in order, and the
first that makes no sense decides what is wrong.
-/

namespace Privatization.CommandLine

/-- What the program can be told to do. -/
inductive Command where
  | analyze
  | check
  deriving DecidableEq

/-- What a command can be told about how to do it. -/
inductive Setting where
  | output
  | format
  | statistics
  | noColor
  | noUnknowns
  | keepLoopIndependent
  | verbose
  deriving DecidableEq

namespace Setting

/-- The name behind two hyphens. -/
def name : Setting → String
  | output => "output"
  | format => "format"
  | statistics => "stats"
  | noColor => "no-color"
  | noUnknowns => "no-unknowns"
  | keepLoopIndependent => "keep-loop-independent"
  | verbose => "verbose"

/-- The letter behind one hyphen. -/
def letter? : Setting → Option Char
  | output => some 'o'
  | verbose => some 'v'
  | _ => none

/-- Whether the setting comes with a value. -/
def takesValue : Setting → Bool
  | output | format => true
  | _ => false

/-- Whether a value is allowed. Formats are written exactly as they are called. -/
def allows (value : String) : Setting → Bool
  | output => value ≠ ""
  | format => value = "text" || value = "json"
  | _ => true

end Setting

namespace Command

/-- The word for a command. -/
def name : Command → String
  | analyze => "analyze"
  | check => "check"

/-- The command a word stands for. -/
def ofName? (word : String) : Option Command := [analyze, check].find? (·.name = word)

/-- The settings of a command. -/
def settings : Command → List Setting
  | analyze =>
    [.output, .format, .statistics, .noColor, .noUnknowns, .keepLoopIndependent, .verbose]
  | check => [.verbose]

end Command

/-- What is wrong with a command line. -/
inductive UsageError where
  | noCommand
  | unknownCommand (word : String)
  | unknownSetting (word : String)
  | noValue (s : Setting)
  | needlessValue (s : Setting)
  | badValue (s : Setting) (value : String)
  | repeated (s : Setting)
  | noInput
  | needlessOperand (text : String)
  deriving DecidableEq

/-- The wording of a usage error. -/
def UsageError.message : UsageError → String
  | noCommand => "a command is required: analyze or check"
  | unknownCommand word => s!"unknown command {word}"
  | unknownSetting word => s!"unexpected argument {word}"
  | noValue s => s!"--{s.name} needs a value"
  | needlessValue s => s!"--{s.name} takes no value"
  | badValue s value => s!"invalid value {value} for --{s.name}"
  | repeated s => s!"--{s.name} is given more than once"
  | noInput => "an input path is required"
  | needlessOperand text => s!"unexpected argument {text}"

/-- Why a command line asks for no command. -/
inductive Stop where
  | version
  | help
  | misuse (e : UsageError)
  deriving DecidableEq

/-- What a part of a command line says. -/
inductive Item where
  | operand (text : String)
  | setting (s : Setting) (value : String)
  | stop (why : Stop)

namespace Item

/-- The item that says what is wrong. -/
def misuse (e : UsageError) : Item := .stop (.misuse e)

/-! ### Words

A word gives items, and perhaps a setting whose value is the next word. -/

/-- What the letters behind one hyphen say. A letter whose setting takes a value has it in the
letters behind, less an equals sign in front of them. -/
def ofLetters (known : List Setting) : List Char → List Item × Option Setting
  | [] => ([], none)
  | 'h' :: _ => ([.stop .help], none)
  | c :: rest =>
    match known.find? (·.letter? = some c), rest with
    | none, _ => ([.misuse (.unknownSetting ("-" ++ c.toString))], none)
    | some s, rest =>
      if s.takesValue then
        match rest with
        | [] => ([], some s)
        | '=' :: value => ([.setting s (String.ofList value)], none)
        | value => ([.setting s (String.ofList value)], none)
      else
        let (items, open?) := ofLetters known rest
        (.setting s "" :: items, open?)

/-- What the name behind two hyphens says. An equals sign divides it from a value. -/
def ofName (known : List Setting) (text : List Char) : List Item × Option Setting :=
  let (name, value) := text.span (· ≠ '=')
  match known.find? (·.name = String.ofList name), value with
  | none, [] =>
    ([if name = "help".toList then .stop .help
      else .misuse (.unknownSetting ("--" ++ String.ofList name))], none)
  | none, _ => ([.misuse (.unknownSetting ("--" ++ String.ofList name))], none)
  | some s, [] => if s.takesValue then ([], some s) else ([.setting s ""], none)
  | some s, _ :: value =>
    ([if s.takesValue then .setting s (String.ofList value) else .misuse (.needlessValue s)], none)

/-- What a word says. One hyphen alone is an operand. -/
def ofWord (known : List Setting) (word : String) : List Item × Option Setting :=
  match word.toList with
  | '-' :: '-' :: text => ofName known text
  | '-' :: c :: letters => ofLetters known (c :: letters)
  | _ => ([.operand word], none)

/-- Whether a word can be the value of the setting in front of it. -/
def isValue (word : String) : Bool :=
  match word.toList with
  | '-' :: _ :: _ => false
  | _ => true

/-- What words say. Behind two hyphens alone all words are operands. -/
def ofWords (known : List Setting) : List String → List Item
  | [] => []
  | word :: rest =>
    if word = "--" then rest.map .operand
    else
      match ofWord known word, rest with
      | (items, none), rest => items ++ ofWords known rest
      | (items, some s), [] => items ++ [.misuse (.noValue s)]
      | (items, some s), value :: rest =>
        if isValue value then items ++ .setting s value :: ofWords known rest
        else items ++ [.misuse (.noValue s)]

end Item

/-! ### Requests -/

/-- The input and the settings given so far. -/
structure Given where
  input? : Option String := none
  settings : List (Setting × String) := []

namespace Given

/-- The value of a setting, if it is given. -/
def value? (g : Given) (s : Setting) : Option String := g.settings.lookup s

/-- Whether a setting is given. -/
def has (g : Given) (s : Setting) : Bool := (g.value? s).isSome

/-- Takes in a further item. -/
def add (g : Given) : Item → Except Stop Given
  | .stop why => .error why
  | .operand text =>
    if g.input?.isSome then .error (.misuse (.needlessOperand text))
    else if text.isEmpty then .error (.misuse .noInput)
    else .ok { g with input? := some text }
  | .setting s value =>
    if g.has s then .error (.misuse (.repeated s))
    else if s.allows value then .ok { g with settings := g.settings ++ [(s, value)] }
    else .error (.misuse (.badValue s value))

end Given

/-- A command with its input and settings. -/
structure Request where
  command : Command
  input : String
  given : Given

/-- What the words behind the word for help come to: at most one command, or that word again, can be
explained. -/
def Stop.ofHelp : List String → Stop
  | [] => .help
  | word :: rest =>
    if word = "help" || (Command.ofName? word).isSome then
      match rest with
      | [] => .help
      | next :: _ => .misuse (.unknownCommand next)
    else .misuse (.unknownCommand word)

/-- The request that the words of a command line make. -/
def Request.ofWords : List String → Except Stop Request
  | [] => .error (.misuse .noCommand)
  | word :: rest =>
    match Command.ofName? word, word.toList with
    | some command, _ => do
      let given ← (Item.ofWords command.settings rest).foldlM Given.add {}
      match given.input? with
      | some input => return { command, input, given }
      | none => throw (.misuse .noInput)
    | none, '-' :: 'V' :: _ => .error .version
    | none, '-' :: 'h' :: _ => .error .help
    | none, _ =>
      if word = "--version" then .error .version
      else if word = "--help" then .error .help
      else if word = "help" then .error (.ofHelp rest)
      else .error (.misuse (.unknownCommand word))

end Privatization.CommandLine
