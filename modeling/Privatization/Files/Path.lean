import Privatization.Collection.StrictOrder

/-!
# Paths

Paths are texts: names divided by slashes. This module says how long paths and names may be, which
steps a path takes, how a path is continued, in which order the files of a folder stand, and what the
extension of a file name is.
-/

namespace Privatization.Files

/-- The largest number of bytes in a name. -/
def longestName : Nat := 255

/-- The largest number of bytes in a path. -/
def longestPath : Nat := 4095

/-- The steps of a path, one per name. Slashes in a row count as one; behind the last slash of a
path that ends in one stands a step that stays where it is. -/
def steps (path : String) : List String :=
  match (path.splitOn "/").reverse with
  | [] => []
  | last :: names => names.reverse.filter (· ≠ "") ++ [if last = "" then "." else last]

/-- A path continued by further names. -/
def continued (path : String) (names : List String) : String :=
  (if path.endsWith "/" then path else path ++ "/") ++ "/".intercalate names

/-- The order of files in a folder: name by name along the way to them. -/
def inOrder (files : List (List String)) : List (List String) :=
  files.mergeSort fun a b => !StrictOrder.lt b a

/-- The part of a file name behind its last dot. A dot in front of the name begins no extension. -/
def extension? (name : String) : Option String :=
  match name.toList.reverse.span (· ≠ '.') with
  | (extension, '.' :: _ :: _) => some (String.ofList extension.reverse)
  | _ => none

/-- Whether a path leads to a file with the given extension. -/
def hasExtension (extension path : String) : Bool :=
  ((steps path).getLast?.bind extension?) = some extension

end Privatization.Files
