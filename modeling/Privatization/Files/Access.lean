/-!
# Access to files

What the program needs from a file system, and why a file system may refuse it. The effects are a
parameter: the command line runs on the file system of the machine it is started on, and on a
`Machine` all that it does is a function.
-/

namespace Privatization.Files

/-- Why something cannot be done with a path. -/
inductive AccessError where
  /-- The system refuses it, under a number. -/
  | system (text : String) (number : Nat)
  /-- The path holds the character that ends paths. -/
  | endsEarly
  /-- The bytes of the file are no text. -/
  | notText
  deriving DecidableEq

namespace AccessError

/-- Nothing lies at the path. -/
def notFound : AccessError := .system "No such file or directory" 2

/-- The path goes on below a file. -/
def notDirectory : AccessError := .system "Not a directory" 20

/-- A folder lies where a file is meant. -/
def isDirectory : AccessError := .system "Is a directory" 21

/-- The device takes no more. -/
def noSpace : AccessError := .system "No space left on device" 28

/-- The path, or a name in it, is longer than the system allows. -/
def nameTooLong : AccessError := .system "File name too long" 36

/-- The error that a system tells by a number, where it is one of those above. -/
def ofNumber? (number : Nat) : Option AccessError :=
  [notFound, notDirectory, isDirectory, noSpace, nameTooLong].find? fun
    | system _ n => n = number
    | _ => false

/-- The wording of an access error. -/
def message : AccessError → String
  | system text number => s!"{text} (os error {number})"
  | endsEarly => "file name contained an unexpected NUL byte"
  | notText => "stream did not contain valid UTF-8"

end AccessError

/-- A file system with effects in `m`. -/
structure FileSystem (m : Type → Type) where
  /-- The files at a path or anywhere below it, by paths that begin with it, in the order of their
  names. What is neither a file nor a folder is left out. A failure says which path it is about. -/
  files : String → m (Except (String × AccessError) (List String))
  /-- The text of a file. -/
  read : String → m (Except AccessError String)
  /-- Makes a text the whole of a file, which is created where there is none. -/
  write : String → String → m (Except AccessError Unit)

end Privatization.Files
