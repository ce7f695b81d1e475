import CommitChain.Action
import CommitChain.Json.Canonical

/-!
# JSON files

Files of the engine's own are canonical texts with a newline at the end; any JSON text can be read.
-/

namespace CommitChain.Disk

/-- The tree in the text of a file. -/
def jsonOfBytes (bytes : ByteArray) : Except Failure Json :=
  match String.fromUTF8? bytes with
  | none => .error .notUtf8
  | some s =>
    match Json.parse s with
    | .ok x => .ok x
    | .error .malformed => .error .malformedJson
    | .error .integerTooLong => .error (.refusal .tooManyDigits)
    | .error .tooDeep => .error .misshapen

/-- The bytes of a file. -/
def load (disk : Disk) (path : Path) : Except Failure ByteArray :=
  orFail .disk (disk.read path)

/-- The tree in a file. -/
def loadJson (disk : Disk) (path : Path) : Except Failure Json := do
  jsonOfBytes (← disk.load path)

/-- The canonical text of a tree as a line. -/
def jsonLine (x : Json) : Except Failure ByteArray := do
  let text ← orFail .canonical x.canonical
  .ok (text ++ "\n").toUTF8

/-- An operation on the disk as an action. -/
def act {α : Type} (f : Disk → Except Fault α × Disk) : Action Disk α := fun disk =>
  let (r, disk) := f disk
  (orFail .disk r, disk)

def saveBytes (path : Path) (bytes : ByteArray) : Action Disk Unit :=
  act (write path bytes)

/-- Writes a tree to a file. -/
def saveJson (path : Path) (x : Json) : Action Disk Unit := do
  let bytes ← Action.of (jsonLine x)
  saveBytes path bytes

/-- Appends a tree to a file as one more line. -/
def appendJson (path : Path) (x : Json) : Action Disk Unit := do
  let bytes ← Action.of (jsonLine x)
  act (append path bytes)

end CommitChain.Disk
