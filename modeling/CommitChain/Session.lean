import CommitChain.Config
import CommitChain.Machine.Run
import CommitChain.Reader.Datum
import CommitChain.Session.Audit

/-!
# Sessions

A session is one chain with its stores, its prover and its configuration, in memory or in a store
directory.  The directives take expressions, commitments and identifiers as text.
-/

namespace CommitChain

structure Session where
  config : Config
  /-- The store directory, if there is one. -/
  root : Option Path
  ledger : Ledger Disk

/-! ## Results -/

structure CommitResult where
  commitment : Commitment
  payload : String
  isNew : Bool

structure ChainResult where
  index : Nat
  prior : String
  output : String
  encoding : Json
  newHead : Commitment
  frameCount : Nat

structure ProveResult where
  identifier : String
  index : Nat
  size : Nat

def CommitResult.toJson (r : CommitResult) : Json :=
  .obj [("commitment", .str r.commitment.text), ("payload", .str r.payload), ("new", .bool r.isNew)]

def ChainResult.toJson (r : ChainResult) : Json :=
  .obj [("index", .int r.index), ("prior", .str r.prior), ("output", .str r.output),
    ("output_encoding", r.encoding), ("new_head", .str r.newHead.text),
    ("num_frames", .int r.frameCount)]

def ProveResult.toJson (r : ProveResult) : Json :=
  .obj [("identifier", .str r.identifier), ("step_index", .int r.index), ("num_bytes", .int r.size)]

/-- The printed form of a value. -/
def printed (v : Value) : Except Failure String :=
  match v.print? with
  | some text => .ok text
  | none => .error (.refusal .tooManyDigits)

/-- The commitment that a text writes. -/
def commitmentOfText (s : String) : Except Failure Commitment :=
  match Commitment.ofText? s with
  | some c => .ok c
  | none => .error (.refusal (.commitmentText s))

namespace Session

/-- A session with a configuration, taken up from its store directory if it has one. -/
def make (config : Config) (root : Option Path) (disk : Disk) : Except Failure Session :=
  let ledger := Ledger.fresh (Machine.evaluator config.stepLimit) disk
  match root with
  | none => .ok ⟨config, none, ledger⟩
  | some dir =>
    match Archive.load dir ledger with
    | (.error e, _) => .error e
    | (.ok (), ledger) => .ok ⟨config, root, Archive.attach dir ledger⟩

/-- An action on the ledger. -/
def onLedger {α : Type} (x : Action (Ledger Disk) α) : Action Session α :=
  Action.on ledger (fun s l => { s with ledger := l }) x

/-- An action on the disk. -/
def onDisk {α : Type} (x : Action Disk α) : Action Session α :=
  onLedger (Ledger.onWorld x)

def disk (s : Session) : Disk :=
  s.ledger.world

/-- The prover that the configuration asks for. -/
def hashFold (c : Config) : HashFold :=
  if h : 0 < c.portion then ⟨⟨c.folding, c.portion, h⟩, c.maxProofFrames⟩
  else { maxFrames := c.maxProofFrames }

def backend (s : Session) : Backend :=
  (hashFold s.config).backend

/-- Reads and evaluates an expression. -/
def evaluate (c : Config) (text : String) : Except Failure Value := do
  let expr ← orFail .read (Value.read text)
  let r ← orFail .evaluation (Machine.evaluate c.stepLimit expr .empty)
  .ok r.value

/-- Writes the file of the chain. -/
def persistChain : Action Session Unit := do
  let s ← Action.state
  match s.root, s.ledger.chain.head? with
  | some root, some head => onDisk (Archive.saveChain root head s.ledger.chain.proven)
  | _, _ => return ()

/-! ## Directives -/

/-- Commits to the value of an expression. -/
def commit (text : String) : Action Session CommitResult := do
  let s ← Action.state
  let v ← Action.of (evaluate s.config text)
  let c ← Action.of (orFail .serialization v.commitment)
  let isNew := !s.ledger.payloads.contains c
  let _ ← onLedger (Ledger.commit v)
  let payload ← Action.of (printed v)
  return ⟨c, payload, isNew⟩

/-- Starts the chain at a commitment. -/
def startAt (genesis : Commitment) : Action Session Unit := do
  onLedger (Ledger.start genesis)
  persistChain

/-- Starts the chain. -/
def start (text : String) : Action Session Unit := do
  let genesis ← Action.of (commitmentOfText text)
  startAt genesis

/-- Makes a step with the value of an expression; a fresh chain is started first. -/
def chain (commitment input : String) : Action Session ChainResult := do
  let expected ← Action.of (commitmentOfText commitment)
  let s ← Action.state
  let v ← Action.of (evaluate s.config input)
  if s.ledger.chain.standing = .fresh then startAt expected
  let step ← onLedger (Ledger.advance expected v)
  let output ← Action.of (printed step.output)
  let encoding ← Action.of (orFail .serialization step.output.encodeStrict)
  return {
    index := step.record.index
    prior := step.record.claim.prior
    output
    encoding
    newHead := step.newHead
    frameCount := step.record.trace.frames.length }

/-- The time limit of a proof. -/
def timeLimit (c : Config) (timeout : Option Binary64) : Option Binary64 :=
  timeout.or c.proveTimeout

/-- Proves a step, or the last one that is not proved, with a backend. -/
def proveWith (backend : Backend) (index : Option Int) (timeout : Option Binary64) :
    Action Session ProveResult := do
  let s ← Action.state
  let limit := timeLimit s.config timeout
  let proof ← match index with
    | none => onLedger (Ledger.provePending backend limit)
    | some i =>
      match s.ledger.chain.record? i with
      | some r => onLedger (Ledger.prove backend limit r)
      | none => Action.fail (.proving (.noRecord i))
  persistChain
  return ⟨proof.identifier, proof.index, proof.artifact.size⟩

/-- Proves a step, or the last one that is not proved. -/
def prove (index : Option Int) (timeout : Option Binary64) : Action Session ProveResult := do
  let s ← Action.state
  proveWith s.backend index timeout

/-- Verifies a stored proof, or the one in a file. -/
def verify (s : Session) (identifier : String) (file : Option Path) :
    Except Failure Verification := do
  let given ← match file with
    | some path => (s.disk.load path).map some
    | none => .ok none
  s.ledger.verify s.backend identifier given none

/-- The printed form of a committed value. -/
def fetch (s : Session) (commitment : String) : Except Failure String := do
  let c ← commitmentOfText commitment
  let p ← s.ledger.payloads.fetch c
  printed p.value

/-- Writes a stored proof to a file. -/
def exportProof (identifier : String) (out : Path) : Action Session Path := do
  let s ← Action.state
  let bytes ← Action.of (s.ledger.artifact identifier)
  onDisk (Disk.saveBytes out bytes)
  return out

/-- Audits the store directory. -/
def audit (s : Session) : Except Failure AuditReport :=
  match s.root with
  | some root => Audit.run s.disk root
  | none => .error (.refusal .notStored)

end Session

/-- Opens a session as its settings say. -/
def Session.openAt (disk : Disk) (root : Option Path) (file : Option Path)
    (settings : List (String × Json)) : Except Failure Session := do
  let config ← Config.resolve disk root file settings
  Session.make config root disk

end CommitChain
