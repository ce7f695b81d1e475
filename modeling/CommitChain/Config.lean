import CommitChain.Disk.Files
import CommitChain.Proof.Folding

/-!
# Configuration

The settings of a session.  They come from a file that is named, or from `config.json` in the store
directory if there is one, or are the defaults; single settings can be overridden after that.
-/

namespace CommitChain

structure Config where
  /-- The reductions that a step may take. -/
  stepLimit : Nat
  /-- The frames of a portion on circuit zero. -/
  portion : Nat
  folding : FoldingKind
  /-- The seconds that a proof may take; `none` is without limit. -/
  proveTimeout : Option Binary64
  maxProofFrames : Nat

namespace Config

def default : Config := ⟨10000, 10, .several, none, 1000000⟩

instance : Inhabited Config := ⟨default⟩

def checkFolding : Check FoldingKind := fun path x =>
  match x with
  | .str s =>
    match FoldingKind.ofName? s with
    | some kind => .good kind
    | none => Check.fail path .notChoice
  | _ => Check.fail path .notChoice

def check : Check Config :=
  Check.object ["step_limit", "reduction_count", "folding", "prove_timeout", "max_proof_frames"]
    fun ms path =>
      Config.mk <$> Check.memberOr "step_limit" default.stepLimit (Check.atLeast 1) ms path
        <*> Check.memberOr "reduction_count" default.portion (Check.atLeast 1) ms path
        <*> Check.memberOr "folding" default.folding checkFolding ms path
        <*> Check.memberOr "prove_timeout" none (Check.optional Check.positive) ms path
        <*> Check.memberOr "max_proof_frames" default.maxProofFrames (Check.atLeast 1) ms path

/-- The members of a configuration. -/
def members (c : Config) : List (String × Json) :=
  [("step_limit", .int c.stepLimit), ("reduction_count", .int c.portion),
    ("folding", .str c.folding.name), ("prove_timeout", (c.proveTimeout.map .float).getD .null),
    ("max_proof_frames", .int c.maxProofFrames)]

/-- The configuration of a tree. -/
def ofJson (x : Json) : Except Failure Config :=
  orFail (.invalid "EngineConfig") (check.run x)

/-- The configuration with some settings replaced. -/
def override (c : Config) (settings : List (String × Json)) : Except Failure Config :=
  if settings.isEmpty then .ok c
  else ofJson (.obj (settings.foldl (fun ms p => Keyed.put p.1 p.2 ms) c.members))

/-- The configuration in a file. -/
def load (disk : Disk) (path : Path) : Except Failure Config :=
  match disk.loadJson path with
  | .error .malformedJson => .error (.refusal (.configJson path))
  | .error e => .error e
  | .ok x =>
    match check.run x with
    | .error _ => .error (.refusal (.configShape path))
    | .ok c => .ok c

/-- The name of the file in a store directory. -/
def fileName : String := "config.json"

/-- The configuration for a store directory: the file that is named, or the one in the directory, or
the defaults, with some settings replaced. -/
def resolve (disk : Disk) (root : Option Path) (file : Option Path)
    (settings : List (String × Json)) : Except Failure Config := do
  let c ← match file, root with
    | some file, _ => load disk file
    | none, some root =>
      if disk.contains (root ++ [fileName]) then load disk (root ++ [fileName]) else .ok default
    | none, none => .ok default
  c.override settings

end Config

end CommitChain
