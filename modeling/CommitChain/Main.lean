import CommitChain.CommandLine

/-!
# The program

Reads the files that a request may touch, runs the request, writes back the files that changed, and
prints the result.
-/

namespace CommitChain.CommandLine

def usage : String :=
  lines [
    "usage: chainproof [-h] [--version] COMMAND ...",
    "",
    "commands:",
    "  commit EXPRESSION             evaluate an expression and commit its value",
    "  chain COMMITMENT INPUT        apply the head function to an input",
    "  prove                         prove the last step that is not proved",
    "  verify IDENTIFIER             verify a proof",
    "  open COMMITMENT               print a committed value",
    "  audit                         check a store directory",
    "  export IDENTIFIER --out FILE  write a stored proof to a file",
    "",
    "options of all commands:",
    "  --store DIR    store directory (.chainproof)",
    "  --config FILE  configuration (config.json in the store directory)",
    "  --quiet        print errors only",
    "  --verbose      accepted and without effect",
    "  --json         print results as canonical JSON",
    "",
    "further options:",
    "  chain --step-limit N    reductions the step may take",
    "  prove --step N          prove step N",
    "  prove --timeout S       seconds the proof may take",
    "  verify --artifact FILE  verify the proof in a file"]

/-- The paths that a request may touch. -/
def paths (r : Request) : List Path :=
  [r.store, Archive.commitmentsDir r.store, Archive.proofsDir r.store] ++ r.config.toList
  ++ match r.directive with
    | .verify _ (some file) => [file]
    | .exportProof _ out => [out]
    | _ => []

/-- What stands at a path, and the names in it if it is a directory. -/
def lookAt (path : Path) : IO (Option Disk.Entry × List String) := do
  match ← (IO.FS.realPath path.text).toBaseIO with
  | .error _ => return (none, [])
  | .ok found =>
    if ← found.isDir then
      return (some .directory, (← found.readDir).toList.map fun e => e.fileName)
    else
      match ← (IO.FS.readBinFile found).toBaseIO with
      | .ok bytes => return (some (.file bytes), [])
      | .error _ => return (none, [])

/-- Takes what stands at a path into a disk; gives the names in it too. -/
def takeIn (disk : Disk) (path : Path) : IO (Disk × List String) := do
  let (entry, names) ← lookAt path
  return match entry with
    | some entry => ({ disk with entries := Disk.putEntry path entry disk.entries }, names)
    | none => (disk, names)

/-- The part of the disk that a request may touch. -/
def load (r : Request) : IO Disk := do
  let mut disk := Disk.empty
  for path in paths r do
    for above in Disk.ancestors path do
      disk := (← takeIn disk above).1
    let (found, names) ← takeIn disk path
    disk := found
    if [r.store, Archive.commitmentsDir r.store, Archive.proofsDir r.store].contains path then
      for name in names do
        disk := (← takeIn disk (path ++ [name])).1
  return disk

/-- Writes a file as a whole. -/
def replaceFile (path : Path) (bytes : ByteArray) : IO Unit := do
  let unfinished := path.text ++ ".tmp"
  IO.FS.writeBinFile unfinished bytes
  IO.FS.rename unfinished path.text

/-- Writes what is in a disk and was not in another. -/
def save (before after : Disk) : IO Unit := do
  for (path, entry) in after.entries do
    match entry, Disk.lookup? path before.entries with
    | .directory, some _ => pure ()
    | .directory, none => IO.FS.createDirAll path.text
    | .file bytes, some (.file old) => if bytes == old then pure () else replaceFile path bytes
    | .file bytes, _ => replaceFile path bytes

/-- Carries out a request and gives its exit status. -/
def execute (r : Request) : IO UInt32 := do
  let disk ← load r
  let (outcome, after) := run r disk
  save disk after
  match outcome with
  | .shown status text =>
    IO.print text
    return status.toUInt32
  | .failed f =>
    match message? f with
    | some message => IO.eprintln ("Error: " ++ message)
    | none => IO.eprintln ("Unexpected error: " ++ f.message)
    return 1

end CommitChain.CommandLine

open CommitChain.CommandLine in
def main (arguments : List String) : IO UInt32 := do
  match read arguments with
  | .help =>
    IO.print usage
    return 0
  | .version =>
    IO.println "chainproof dev"
    return 0
  | .misuse =>
    IO.eprint usage
    return 2
  | .nothing =>
    IO.print usage
    return 1
  | .request r => execute r
