import Privatization.Files.Access

/-!
# Devices

Files that stand for a part of the machine and keep no text. They can be opened like any file, but
they are no part of what a folder is searched for.
-/

namespace Privatization.Files

/-- The devices a program can count on. -/
inductive Device where
  /-- Takes everything and holds nothing. -/
  | null
  /-- Takes nothing. -/
  | full
  /-- The input of the program, which is empty. -/
  | input
  /-- The output of the program. -/
  | output
  /-- The messages of the program. -/
  | messages
  deriving DecidableEq

namespace Device

/-- The names that lead to a device from the root. -/
def place : Device → List String
  | null => ["dev", "null"]
  | full => ["dev", "full"]
  | input => ["dev", "stdin"]
  | output => ["dev", "stdout"]
  | messages => ["dev", "stderr"]

/-- The device at a place. -/
def at? (place : List String) : Option Device :=
  [null, full, input, output, messages].find? (·.place = place)

end Device

/-- What a program has sent to its streams under the names of their devices. -/
structure Streams where
  output : String := ""
  messages : String := ""

/-- Sends a text to a device. A full device refuses every text but the empty one. -/
def Streams.send (s : Streams) (text : String) : Device → Except AccessError Streams
  | .null | .input => .ok s
  | .full => if text.isEmpty then .ok s else .error .noSpace
  | .output => .ok { s with output := s.output ++ text }
  | .messages => .ok { s with messages := s.messages ++ text }

end Privatization.Files
