import CommitChain.Disk.Files
import CommitChain.Proof.Prover

/-!
# Store directories

A store directory holds `commitments/<digits>.json` with the encoding of each payload,
`proofs/<identifier>.json` with the bytes of each proof, `steps.jsonl` with a record a line, and
`chain.json` with the head and the numbers of the proved steps.

Payloads and proofs are written once and step lines are appended; only `chain.json` is written
again.  A step line is written before the head, so after a stop in between the last line tells how
to go on.
-/

namespace CommitChain.Archive

def commitmentsDir (root : Path) : Path := root ++ ["commitments"]
def proofsDir (root : Path) : Path := root ++ ["proofs"]
def stepsFile (root : Path) : Path := root ++ ["steps.jsonl"]
def chainFile (root : Path) : Path := root ++ ["chain.json"]

def commitmentFile (root : Path) (c : Commitment) : Path :=
  commitmentsDir root ++ [c.hex ++ ".json"]

def proofFile (root : Path) (identifier : String) : Path :=
  proofsDir root ++ [identifier ++ ".json"]

/-! ## Writing -/

/-- Writes a payload unless its file is there. -/
def savePayload (root : Path) (c : Commitment) (p : Payload) : Action Disk Unit := fun disk =>
  if disk.contains (commitmentFile root c) then (.ok (), disk)
  else Disk.saveJson (commitmentFile root c) p.encoding disk

/-- Writes a proof unless its file is there. -/
def saveProof (root : Path) (identifier : String) (bytes : ByteArray) : Action Disk Unit :=
  fun disk =>
    if disk.contains (proofFile root identifier) then (.ok (), disk)
    else Disk.saveBytes (proofFile root identifier) bytes disk

/-- What stands in the file of the chain. -/
def chainJson (head : String) (proven : List Int) : Json :=
  .obj [("head", .str head), ("proven", .arr (proven.map .int))]

def saveChain (root : Path) (head : Commitment) (proven : List Int) : Action Disk Unit :=
  Disk.saveJson (chainFile root) (chainJson head.text proven)

/-- Writes the line of a step, and the new head after it. -/
def saveStep (root : Path) (r : StepRecord) (proven : List Int) : Action Disk Unit := do
  Disk.appendJson (stepsFile root) r.toJson
  match Commitment.ofText? r.claim.newHead with
  | some head => saveChain root head proven
  | none => Action.fail (.refusal (.commitmentText r.claim.newHead))

/-- Writes everything that happens to a ledger from now on. -/
def attach (root : Path) (l : Ledger Disk) : Ledger Disk :=
  { l with
    payloads := l.payloads.subscribe (savePayload root)
    proofs := l.proofs.subscribe (saveProof root)
    chain := l.chain.subscribe (saveStep root) }

/-! ## Reading -/

/-- The names of the JSON files in a directory, in ascending order. -/
def jsonNames (disk : Disk) (dir : Path) : List String :=
  (disk.names dir).filter Path.isJsonName

/-- The step records in lines from number `number` on; blank lines do not count. -/
def recordsOfLines (file : Path) (number : Nat) : List String → Except Failure (List StepRecord)
  | [] => .ok []
  | line :: rest =>
    if line.toList.all Text.isBlank then recordsOfLines file (number + 1) rest
    else
      match StepRecord.check.runText line with
      | .error _ => .error (.refusal (.stepLine file number))
      | .ok r => do
        let rs ← recordsOfLines file (number + 1) rest
        .ok (r :: rs)

/-- The step records in a store directory. -/
def loadSteps (disk : Disk) (root : Path) : Except Failure (List StepRecord) :=
  if disk.contains (stepsFile root) then do
    let bytes ← disk.load (stepsFile root)
    let read := Text.readLines bytes
    let records ← recordsOfLines (stepsFile root) 1 read.good
    if read.broken then .error .notUtf8 else .ok records
  else .ok []

/-- Stores the payloads of a store directory. -/
def loadPayloads (disk : Disk) (root : Path) : List String → Action (Ledger Disk) Unit
  | [] => Action.done ()
  | name :: rest => do
    let x ← Action.of (disk.loadJson (commitmentsDir root ++ [name]))
    let c ← Ledger.restore x
    if c.hex ≠ Path.stem name then Action.fail (.chainFaulted (.foreignFile name c root))
    else loadPayloads disk root rest

/-- Stores the proofs of a store directory; other files do not count. -/
def loadProofs (disk : Disk) (root : Path) : List String → Action (Ledger Disk) Unit
  | [] => Action.done ()
  | name :: rest => do
    if isProofIdentifier (Path.stem name) then
      let bytes ← Action.of (disk.load (proofsDir root ++ [name]))
      let _ ← Ledger.putProof (Path.stem name) bytes
      loadProofs disk root rest
    else loadProofs disk root rest

/-- The commitment that a tree writes. -/
def headOfJson : Json → Except Failure Commitment
  | .str s =>
    match Commitment.ofText? s with
    | some c => .ok c
    | none => .error (.refusal (.commitmentText s))
  | _ => .error .misshapen

/-- The integer that a tree stands for; the fraction of a number does not count. -/
def integerOfJson : Json → Except Failure Int
  | .int n => .ok n
  | .bool b => .ok (if b then 1 else 0)
  | .float .nan => .error (.refusal .notANumber)
  | .float x =>
    match x.truncate? with
    | some n => .ok n
    | none => .error .misshapen
  | .str s =>
    match Text.integer? s with
    | .ok n => .ok n
    | .error .malformed => .error (.refusal (.integerText s))
    | .error .tooLong => .error (.refusal .tooManyDigits)
  | _ => .error .misshapen

/-- The numbers that a tree lists: the items of an array, the characters of a text, or the names of
an object. -/
def numbersOfJson : Json → Except Failure (List Int)
  | .arr items => items.mapM integerOfJson
  | .str s => s.toList.mapM fun c => integerOfJson (.str (String.singleton c))
  | .obj members => members.mapM fun p => integerOfJson (.str p.1)
  | _ => .error .misshapen

/-- The head and the proved steps in the file of the chain. -/
def chainOfJson (x : Json) : Except Failure (Commitment × List Int) :=
  match x with
  | .obj members =>
    match Keyed.find? "head" members with
    | some head => do
      let head ← headOfJson head
      let proven ← numbersOfJson ((Keyed.find? "proven" members).getD (.arr []))
      .ok (head, proven)
    | none => .error .misshapen
  | _ => .error .misshapen

/-- What a store directory says about its chain. -/
structure Saved where
  head : Commitment
  proven : List Int
  records : List StepRecord

/-- The head, moved on by a last step whose line was written and whose head was not. -/
def rollForward (head : Commitment) (records : List StepRecord) : Except Failure Commitment :=
  match records.getLast? with
  | some r => if r.claim.prior = head.text then headOfJson (.str r.claim.newHead) else .ok head
  | none => .ok head

/-- The chain of a store directory, if it was started. -/
def loadChain (disk : Disk) (root : Path) (records : List StepRecord) :
    Except Failure (Option Saved) :=
  if disk.contains (chainFile root) then do
    let (head, proven) ← chainOfJson (← disk.loadJson (chainFile root))
    let head ← rollForward head records
    .ok (some ⟨head, proven, records⟩)
  else if records.isEmpty then .ok none
  else .error (.chainFaulted (.stepsWithoutHead root))

/-- Fills the stores of a ledger from a store directory and takes up its chain. -/
def load (root : Path) : Action (Ledger Disk) Unit := do
  let disk := (← Action.state).world
  if disk.contains root then
    loadPayloads disk root (jsonNames disk (commitmentsDir root))
    loadProofs disk root (jsonNames disk (proofsDir root))
    let records ← Action.of (loadSteps disk root)
    match ← Action.of (loadChain disk root records) with
    | some saved =>
      let l ← Action.state
      let chain ← Action.of
        (Chain.resume l.payloads l.chain.evaluator saved.head saved.records saved.proven)
      Action.update fun l => { l with chain := chain }
    | none => return ()
  else return ()

end CommitChain.Archive
