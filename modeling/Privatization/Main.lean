import Privatization.CommandLine.Run

/-!
# The program

Runs the command line on the files of the machine: no decision is taken here but how the errors of
the machine read, and whether its terminal shows colours.
-/

namespace Privatization

open Files (AccessError FileSystem)

/-- The error behind a number of the machine, which may be told as less than zero. -/
def numbered (number : UInt32) (details : String) : AccessError :=
  let n := (if number < 0x80000000 then number else 0 - number).toNat
  (AccessError.ofNumber? n).getD (.system details n)

/-- The reason that an error of the machine gives. -/
def accessError : IO.Error → AccessError
  | .noFileOrDirectory .. => .notFound
  | .alreadyExists _ number details | .invalidArgument _ number details
  | .permissionDenied _ number details | .resourceExhausted _ number details
  | .inappropriateType _ number details | .noSuchThing _ number details
  | .otherError number details | .resourceBusy number details
  | .resourceVanished number details | .unsupportedOperation number details
  | .hardwareFault number details | .unsatisfiedConstraints number details
  | .illegalOperation number details | .protocolError number details
  | .timeExpired number details | .interrupted _ number details =>
    numbered number details
  | .unexpectedEof | .userError _ => .notText

/-- An action on a file, with its failures as values. -/
def attempt {α : Type} (action : IO α) : IO (Except AccessError α) :=
  return (← action.toBaseIO).mapError accessError

/-- The files of the machine the program is started on. -/
def machine : FileSystem IO where
  files path := do
    let found ← attempt do
      let place := (← IO.currentDir) / path
      match (← place.metadata).type with
      | .file => return [path]
      | .dir =>
        let entries ← place.walkDir fun folder =>
          return folder == place || (← folder.symlinkMetadata).type == .dir
        let below ← entries.filterM fun entry => return (← entry.symlinkMetadata).type == .file
        let depth := place.components.length
        let names := below.toList.map fun entry => entry.components.drop depth
        return (Files.inOrder names).map (Files.continued path)
      | _ => return []
    return found.mapError (path, ·)
  read path := attempt (IO.FS.readFile path)
  write path text := attempt <| IO.FS.withFile path .write fun file => do
    file.putStr text
    file.flush

/-- Whether colours are shown: `CLICOLOR_FORCE` turns them on, `NO_COLOR` off; else they are on in a
terminal, unless `CLICOLOR` turns them off. A variable with the value 0 says the opposite. -/
def showsColors (force noColor color : Option String) (terminal : Bool) : Bool :=
  if force.any (· != "0") then true
  else if noColor.isSome then false
  else color.all (· != "0") && terminal

end Privatization

/-- Does what the command line asks for. -/
def main (words : List String) : IO UInt32 := do
  let stdout ← IO.getStdout
  let colors := Privatization.showsColors (← IO.getEnv "CLICOLOR_FORCE") (← IO.getEnv "NO_COLOR")
    (← IO.getEnv "CLICOLOR") (← stdout.isTty)
  let outcome ← Privatization.CommandLine.run Privatization.machine colors words
  stdout.putStr outcome.stdout
  (← IO.getStderr).putStr outcome.stderr
  return outcome.code.toUInt32
