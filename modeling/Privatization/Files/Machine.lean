import Privatization.Collection.OrderedMap
import Privatization.Files.Device
import Privatization.Files.Path

/-!
# Machines

The files of a machine as a value: texts by the names that lead to them from the root. A folder is
there if every machine has it, or if some file lies below it. `Machine.system` is the file system
whose effects are changes of such a value.

A program is started in its working folder, at which the paths that are not from the root begin.
-/

namespace Privatization.Files

/-- The texts of files by the names that lead to them, and what was sent to devices. -/
structure Machine where
  files : OrderedMap (List String) String := ∅
  streams : Streams := {}

namespace Machine

/-- The place of the working folder: the name that any program may call its own by. -/
def working : List String := ["proc", "self", "cwd"]

/-- The folders that every machine has. -/
def standing : List (List String) :=
  [[], ["bin"], ["dev"], ["etc"], ["home"], ["lib"], ["proc"], ["proc", "self"], working, ["root"],
    ["sys"], ["tmp"], ["usr"], ["var"]]

/-- The machine whose working folder holds files at the given paths. -/
def ofList (files : List (String × String)) : Machine where
  files := files.foldl (fun m (path, text) => m.insert (working ++ steps path) text) ∅

/-- The files in the working folder, by the names that lead to them from there. -/
def workingFiles (m : Machine) : List (List String × String) :=
  m.files.toList.filterMap fun (place, text) =>
    if working.isPrefixOf place then some (place.drop working.length, text) else none

/-! ### Places -/

/-- What lies at a place. -/
inductive Entry where
  | file (text : String)
  | device (d : Device)
  | folder

/-- The ways on from a place to the files below it. -/
def below (m : Machine) (place : List String) : List (List String) :=
  (m.files.keys.filter fun k => place.isPrefixOf k && k.length != place.length).map
    (·.drop place.length)

/-- What lies at a place, if anything does. -/
def entry? (m : Machine) (place : List String) : Option Entry :=
  match Device.at? place, m.files.get? place with
  | some d, _ => some (.device d)
  | none, some text => some (.file text)
  | none, none =>
    if standing.contains place || !(m.below place).isEmpty then some .folder else none

/-- Refuses a place that is no folder. -/
def enter (m : Machine) (place : List String) : Except AccessError Unit :=
  match m.entry? place with
  | none => .error .notFound
  | some .folder => .ok ()
  | some _ => .error .notDirectory

/-- One step from a place, which has to be a folder. The folder above the root is the root. -/
def step (m : Machine) (place : List String) (name : String) :
    Except AccessError (List String) := do
  m.enter place
  if name = "." then return place
  if name = ".." then return place.dropLast
  if longestName < name.utf8ByteSize then throw .nameTooLong
  return place ++ [name]

/-- The place a path begins at. Such a path as no system takes is refused before any step. -/
def start (path : String) : Except AccessError (List String) :=
  if path.toList.contains '\x00' then .error .endsEarly
  else if path.isEmpty then .error .notFound
  else if longestPath < path.utf8ByteSize then .error .nameTooLong
  else .ok (if path.startsWith "/" then [] else working)

/-- The place a path leads to; something need not lie there. -/
def place (m : Machine) (path : String) : Except AccessError (List String) := do
  (steps path).foldlM m.step (← start path)

/-! ### Access -/

/-- A folder on the way to a file below `path` whose own path is too long to list it. -/
def unlisted? (path : String) (names : List String) : Option String :=
  ((List.range names.length).drop 1).findSome? fun n =>
    let folder := continued path (names.take n)
    if longestPath < folder.utf8ByteSize then some folder else none

/-- The files at a path or below it. -/
def filesAt (m : Machine) (path : String) : Except (String × AccessError) (List String) := do
  let place ← (m.place path).mapError (path, ·)
  match m.entry? place with
  | none => throw (path, .notFound)
  | some (.file _) => return [path]
  | some (.device _) => return []
  | some .folder =>
    let found := inOrder (m.below place)
    match found.findSome? (unlisted? path) with
    | some folder => throw (folder, .nameTooLong)
    | none => return found.map (continued path)

/-- The text of a file. Devices hold none. -/
def read (m : Machine) (path : String) : Except AccessError String := do
  match m.entry? (← m.place path) with
  | none => throw .notFound
  | some (.file text) => return text
  | some (.device _) => return ""
  | some .folder => throw .isDirectory

/-- The machine after a file is written. A path that ends in a slash means a folder, so nothing can
be written there; whether one lies there is not asked. -/
def write (m : Machine) (path text : String) : Except AccessError Machine := do
  let origin ← start path
  if path.endsWith "/" then
    m.enter (← (steps path).dropLast.dropLast.foldlM m.step origin)
    throw .isDirectory
  let place ← (steps path).foldlM m.step origin
  match m.entry? place with
  | some .folder => throw .isDirectory
  | some (.device d) => return { m with streams := ← m.streams.send text d }
  | _ => return { m with files := m.files.insert place text }

/-- The file system of a machine. -/
def system : FileSystem (StateM Machine) where
  files path := return (← get).filesAt path
  read path := return (← get).read path
  write path text := do
    match (← get).write path text with
    | .error e => return .error e
    | .ok m =>
      set m
      return .ok ()

end Machine

end Privatization.Files
