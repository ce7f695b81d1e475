import CommitChain.Disk.Path
import CommitChain.Disk.Utf8

/-!
# The disk

Files and directories under one working directory.  Every change is one operation that happens
completely or not at all: a file is written as a whole, or bytes are appended to it.  `refuses`
tells which changes fail, counted from the first, so that what is left after a failure, or after a
stop between two changes, can be spoken about.
-/

namespace CommitChain

namespace Disk

/-- Why an operation on the disk failed. -/
inductive Fault
  | noSuchFile (path : Path)
  | isDirectory (path : Path)
  | notDirectory (path : Path)
  | fileExists (path : Path)
  | refused (path : Path)
  deriving DecidableEq, Repr

inductive Entry
  | file (bytes : ByteArray)
  | directory

end Disk

structure Disk where
  entries : List (Path × Disk.Entry) := []
  /-- The number of changes so far, refused ones too. -/
  changes : Nat := 0
  /-- The changes that fail. -/
  refuses : Nat → Bool := fun _ => false

namespace Disk

def empty : Disk := {}

/-- What stands in a list of entries at a path. -/
def lookup? (path : Path) : List (Path × Entry) → Option Entry
  | [] => none
  | (p, e) :: r => if p = path then some e else lookup? path r

/-- Puts an entry in the place of another or behind all. -/
def putEntry (path : Path) (entry : Entry) : List (Path × Entry) → List (Path × Entry)
  | [] => [(path, entry)]
  | (p, e) :: r => if p = path then (p, entry) :: r else (p, e) :: putEntry path entry r

/-- What stands at a path; the working directory always does. -/
def find? (disk : Disk) (path : Path) : Option Entry :=
  if path.isEmpty then some .directory else lookup? path disk.entries

def isFile (disk : Disk) (path : Path) : Bool :=
  match disk.find? path with
  | some (.file _) => true
  | _ => false

def isDirectory (disk : Disk) (path : Path) : Bool :=
  match disk.find? path with
  | some .directory => true
  | _ => false

def contains (disk : Disk) (path : Path) : Bool :=
  (disk.find? path).isSome

/-- The paths above a path, the working directory first. -/
def ancestors (path : Path) : List Path :=
  (List.range path.length).map path.take

/-- The bytes of a file. -/
def read (disk : Disk) (path : Path) : Except Fault ByteArray :=
  match disk.find? path with
  | some (.file bytes) => .ok bytes
  | some .directory => .error (.isDirectory path)
  | none =>
    if (ancestors path).any disk.isFile then .error (.notDirectory path)
    else .error (.noSuchFile path)

/-- The names in a directory, in ascending order. -/
def names (disk : Disk) (path : Path) : List String :=
  (disk.entries.filterMap fun (p, _) =>
    match p.getLast? with
    | some name => if p = path ++ [name] then some name else none
    | none => none).mergeSort fun a b => decide (a ≤ b)

/-- The paths of all files, in the order of their texts. -/
def files (disk : Disk) : List String :=
  (disk.entries.filterMap fun (p, e) =>
    match e with
    | .file _ => some p.text
    | .directory => none).mergeSort fun a b => decide (a ≤ b)

/-- Makes a directory and those above it. -/
def makeDirectory (path : Path) (disk : Disk) : Except Fault Disk :=
  if (ancestors path).any disk.isFile then .error (.notDirectory path)
  else if disk.isFile path then .error (.fileExists path)
  else
    .ok { disk with
      entries := (ancestors path ++ [path]).foldl
        (fun es p => if p.isEmpty then es else putEntry p .directory es) disk.entries }

/-- The directory that holds a path. -/
def parent (path : Path) : Path :=
  path.dropLast

/-- Changes the bytes of the file at a path, whose directory is made first. -/
def change (path : Path) (f : ByteArray → ByteArray) (disk : Disk) : Except Fault Unit × Disk :=
  match disk.makeDirectory (parent path) with
  | .error e => (.error e, disk)
  | .ok made =>
    let counted := { made with changes := made.changes + 1 }
    match made.find? path with
    | some .directory => (.error (.isDirectory path), counted)
    | found =>
      if made.refuses made.changes then (.error (.refused path), counted)
      else
        let bytes := match found with
          | some (.file bytes) => bytes
          | _ => .empty
        (.ok (), { counted with entries := putEntry path (.file (f bytes)) counted.entries })

/-- Writes a file as a whole. -/
def write (path : Path) (bytes : ByteArray) : Disk → Except Fault Unit × Disk :=
  change path fun _ => bytes

/-- Appends bytes to a file, which need not exist. -/
def append (path : Path) (bytes : ByteArray) : Disk → Except Fault Unit × Disk :=
  change path (· ++ bytes)

/-- Removes a file; tells whether it was there. -/
def delete (path : Path) (disk : Disk) : Except Fault Bool × Disk :=
  match disk.find? path with
  | some (.file _) => (.ok true, { disk with entries := disk.entries.filter (·.1 ≠ path) })
  | some .directory => (.error (.isDirectory path), disk)
  | none => (.ok false, disk)

end Disk

end CommitChain
