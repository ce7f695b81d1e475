import CommitChain.Chain
import CommitChain.Proof.HashFold

/-!
# Proving the steps of a chain

The prover hands a record to its backend and stores the proof under its identifier.  While a chain
is attached it proves that chain's records only and marks them as proved.  Nothing is stored unless
the backend has come to the end.
-/

namespace CommitChain

/-- The proofs under their identifiers. -/
abbrev Proofs (ω : Type) := Store ω String ByteArray

/-- A chain with the stores around it and the world that their listeners act on. -/
structure Ledger (ω : Type) where
  payloads : Payloads ω
  proofs : Proofs ω
  chain : Chain ω
  /-- Whether the chain is attached to the prover. -/
  attached : Bool
  world : ω

/-- A proof that was stored. -/
structure Proof where
  identifier : String
  artifact : ByteArray
  claim : Claim
  index : Nat

namespace Ledger

variable {ω : Type}

/-- A fresh chain over empty stores. -/
def fresh (evaluator : Evaluator) (world : ω) : Ledger ω :=
  ⟨.empty, .empty, .fresh evaluator, true, world⟩

/-! ## Actions on the parts -/

/-- An action on the payloads. -/
def onPayloads {α : Type} (x : Action (Payloads ω × ω) α) : Action (Ledger ω) α :=
  Action.on (fun l => (l.payloads, l.world)) (fun l s => { l with payloads := s.1, world := s.2 }) x

/-- An action on the proofs. -/
def onProofs {α : Type} (x : Action (Proofs ω × ω) α) : Action (Ledger ω) α :=
  Action.on (fun l => (l.proofs, l.world)) (fun l s => { l with proofs := s.1, world := s.2 }) x

/-- An action on the world. -/
def onWorld {α : Type} (x : Action ω α) : Action (Ledger ω) α :=
  Action.on world (fun l w => { l with world := w }) x

def commit (v : Value) : Action (Ledger ω) Commitment :=
  onPayloads (Payloads.commit v)

def restore (encoding : Json) : Action (Ledger ω) Commitment :=
  onPayloads (Payloads.restore encoding)

/-- Stores a proof and tells whether it is new. -/
def putProof (identifier : String) (artifact : ByteArray) : Action (Ledger ω) Bool :=
  onProofs (Store.put id (fun a b => .ok (a == b)) identifier artifact)

/-- Starts the chain. -/
def start (genesis : Commitment) : Action (Ledger ω) Unit := fun l =>
  match l.chain.start l.payloads genesis with
  | .ok chain => (.ok (), { l with chain := chain })
  | .error e => (.error e, l)

/-- Makes a step. -/
def advance (expected : Commitment) (input : Value) : Action (Ledger ω) Chain.Step :=
  Action.on (fun l => (l.chain, l.payloads, l.world))
    (fun l s => { l with chain := s.1, payloads := s.2.1, world := s.2.2 })
    (Chain.advance expected input)

/-! ## Proving -/

/-- What a failure of the backend is to the caller. -/
def ofBackend (index : Nat) (f : Failure) : Failure :=
  match f.kind with
  | .engine .proving | .engine .nothingToProve => f
  | _ => .proving (.backendFailed index f.message)

/-- The bytes that a backend makes of a record within a time limit. -/
def attempt (backend : Backend) (limit : Option Binary64) (r : StepRecord) :
    Except Failure ByteArray :=
  match backend.prove r.claim r.trace with
  | .artifact bytes => .ok bytes
  | .failed f => .error (ofBackend r.index f)
  -- without a limit the prover waits forever
  | .unfinished => .error (.proving (.timedOut r.index (limit.getD (.infinite false))))

/-- Proves a record. -/
def prove (backend : Backend) (limit : Option Binary64) (r : StepRecord) :
    Action (Ledger ω) Proof := do
  let l ← Action.state
  if l.attached && !l.chain.owns r then Action.fail (.proving (.foreignRecord r.index))
  else
    let bytes ← Action.of (attempt backend limit r)
    let identifier := proofIdentifier bytes
    let _ ← putProof identifier bytes
    Action.update fun l => if l.attached then { l with chain := l.chain.markProven r.index } else l
    return ⟨identifier, bytes, r.claim, r.index⟩

/-- Proves the last record that is not proved. -/
def provePending (backend : Backend) (limit : Option Binary64) : Action (Ledger ω) Proof := do
  let l ← Action.state
  if l.attached then
    match l.chain.pending.getLast? with
    | some r => prove backend limit r
    | none => Action.fail (.nothingToProve true)
  else Action.fail (.nothingToProve false)

/-! ## Verifying -/

/-- Verifies the bytes of a proof that goes by an identifier. -/
def verifyBytes (backend : Backend) (identifier : String) (bytes : ByteArray)
    (expected : Option Claim) : Except Failure Verification :=
  let negative (code : VerificationCode) (reason : String) : Verification :=
    ⟨identifier, false, code.name, some reason, none⟩
  if proofIdentifier bytes ≠ identifier then
    .ok (negative .hashMismatch "Artifact bytes do not match the identifier")
  else
    match ProofArtifact.ofBytes bytes with
    | .error _ => .ok (negative .malformedProof "Cannot parse proof")
    | .ok a =>
      if expected.any fun c => !c.same a.claim then
        .ok (negative .claimMismatch "Proof does not prove the expected claim")
      else
        match backend.verify a.claim bytes with
        | .error e => .error e
        | .ok (.rejected code reason) => .ok (negative code reason)
        | .ok .accepted => .ok ⟨identifier, true, VerificationCode.ok.name, none, some a.claim⟩

/-- The bytes of a stored proof. -/
def artifact (l : Ledger ω) (identifier : String) : Except Failure ByteArray :=
  match l.proofs.find? identifier with
  | some bytes => .ok bytes
  | none => .error (.unknownProof identifier)

/-- Verifies a proof, which is taken from the store unless it is given. -/
def verify (backend : Backend) (l : Ledger ω) (identifier : String) (given : Option ByteArray)
    (expected : Option Claim) : Except Failure Verification := do
  let bytes ← match given with
    | some bytes => .ok bytes
    | none => l.artifact identifier
  verifyBytes backend identifier bytes expected

end Ledger

end CommitChain
