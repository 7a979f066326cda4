import Privatization.Facts.Loader
import Privatization.Files.Access
import Privatization.Files.Path

/-!
# Facts files

Facts texts that are kept in files: one file, or all files with the extension `facts` below a
folder.
-/

namespace Privatization.Facts

open Files (AccessError FileSystem)

/-- Why facts files give no functions. -/
inductive FileError where
  /-- The files below the path cannot be listed, since the place cannot. -/
  | notListed (path place : String) (cause : AccessError)
  /-- The text of a file cannot be read. -/
  | notRead (path : String) (cause : AccessError)
  /-- The text of a file is refused. -/
  | refused (cause : FactsError)
  deriving DecidableEq

namespace FileError

/-- The wording of a file error. -/
def message : FileError → String
  | notListed path place cause =>
    s!"Failed to walk {path}: IO error for operation on {place}: {cause.message}"
  | notRead path cause => s!"Failed to read {path}: {cause.message}"
  | refused cause => cause.message

/-- The wording of an error when a file is read, and of the errors behind it. -/
def causes : FileError → List String
  | e@(notListed _ _ cause) | e@(notRead _ cause) => [e.message, cause.message]
  | e@(refused (.refused _ (.model cause))) => [e.message, cause.message]
  | e => [e.message]

end FileError

variable {m : Type → Type} [Monad m]

/-- The functions in a facts file. -/
def readFile (fs : FileSystem m) (path : String) : ExceptT FileError m (List Function) := do
  match ← fs.read path with
  | .error e => throw (.notRead path e)
  | .ok text =>
    match read text with
    | .error e => throw (.refused e)
    | .ok functions => return functions

/-- The functions in each facts file at a path or below it, up to the first that gives none. -/
def readFiles (fs : FileSystem m) (path : String) :
    ExceptT FileError m (List (String × List Function)) := do
  match ← fs.files path with
  | .error (place, e) => throw (.notListed path place e)
  | .ok files =>
    (files.filter (Files.hasExtension "facts")).mapM fun file => return (file, ← readFile fs file)

end Privatization.Facts
