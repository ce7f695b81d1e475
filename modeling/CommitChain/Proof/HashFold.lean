import CommitChain.Commitment
import CommitChain.Proof.Artifact

/-!
# Folding by hashes

A backend turns a claim and a trace into the bytes of a proof, and checks such bytes against a claim
without the trace.

This one hashes the portions of the trace one after the other into an accumulator and seals the
result. A proof of it shows that nothing was changed since it was made; anyone can make one, so it
is no stronger than the one who made it.
-/

namespace CommitChain

open CommitChain.Hash

/-- What a backend comes to in the time it is given. -/
inductive Attempt
  | artifact (bytes : ByteArray)
  | failed (f : Failure)
  | unfinished

/-- Whether a proof is accepted, and why not. -/
inductive Verdict
  | accepted
  | rejected (code : VerificationCode) (reason : String)

structure Backend where
  prove : Claim → Trace → Attempt
  verify : Claim → ByteArray → Except Failure Verdict

/-- What prover and verifier agree on in advance. -/
structure PublicParams where
  backend : String
  folding : Folding
  digest : Digest

namespace PublicParams

def body (backend : String) (folding : Folding) : Json :=
  .obj [("backend", .str backend), ("folding", .str folding.kind.name),
    ("reduction_count", .int folding.portion), ("num_circuits", .int folding.circuitCount)]

def make (backend : String) (folding : Folding) : Except Json.CanonicalFault PublicParams := do
  let digest ← (body backend folding).digest paramsDomain
  .ok ⟨backend, folding, digest⟩

end PublicParams

structure HashFold where
  folding : Folding := {}
  /-- Longer traces are not proved. -/
  maxFrames : Nat := 1000000

namespace HashFold

def name : String := "hashfold"

def params (b : HashFold) : Except Json.CanonicalFault PublicParams :=
  PublicParams.make name b.folding

/-- The text of a digest as bytes. -/
def hexBytes (d : Digest) : ByteArray :=
  d.hex.toUTF8

/-! ## Traces -/

/-- What is wrong with the numbers and links of frames from number `position` on, behind a frame
with the output `before`. -/
def frameFault? (position : Nat) (before : Option Digest) : List Frame → Option ProvingFault
  | [] => none
  | f :: fs =>
    if f.index ≠ position then some (.frameIndex position f.index)
    else
      match before with
      | some d =>
        if d ≠ f.input then some (.frameLink position)
        else frameFault? (position + 1) (some f.output) fs
      | none => frameFault? (position + 1) (some f.output) fs

/-- The output and the next function of the encoding of a result. -/
def splitEncoding : Json → Except ProvingFault (Json × Json)
  | .arr [.str "cons", .arr [output], next] => .ok (output, next)
  | _ => .error .resultNotPair

/-- Whether an encoding is tagged as a function. -/
def isFunctionEncoding : Json → Bool
  | .arr (.str tag :: _) => tag = "fun" || tag = "fix"
  | _ => false

/-- Checks that a trace leads from the start that a claim names to the end that it names; gives the
first and the last digest. -/
def checkTrace (b : HashFold) (claim : Claim) (trace : Trace) :
    Except Failure (Digest × Digest) := do
  match trace.frames, trace.frames.getLast? with
  | first :: _, some last =>
    if b.maxFrames < trace.frames.length then
      .error (.proving (.tooManyFrames trace.frames.length b.maxFrames))
    else
      match frameFault? 0 none trace.frames with
      | some fault => .error (.proving fault)
      | none => do
        let start ← orFail .canonical claim.start
        if first.input ≠ start then .error (.proving .wrongStart) else .ok ()
        let halt ← orFail .canonical (Machine.stateDigest (Machine.haltState trace.result))
        if last.output ≠ halt then .error (.proving .wrongEnd) else .ok ()
        let (output, next) ← orFail .proving (splitEncoding trace.result)
        let outputText ← orFail .canonical output.canonical
        let claimed ← orFail .canonical claim.output.canonical
        if outputText ≠ claimed then .error (.proving .wrongOutput) else .ok ()
        if isFunctionEncoding next then .ok () else .error (.proving .tailNotFunction)
        let newHead ← orFail (fun e => .proving (.nextNotEncodable e)) (commitmentOf next)
        if newHead.text ≠ claim.newHead then .error (.proving .wrongNewHead) else .ok ()
        .ok (first.input, last.output)
  | _, _ => .error (.proving .noFrames)

/-! ## Accumulating -/

/-- The accumulator before the first portion. -/
def startAccumulator (params z0 : Digest) : Digest :=
  taggedDigest foldDomain [hexBytes params, hexBytes z0]

/-- The accumulator after one more portion. -/
def accumulate (accumulator : Digest) (p : Portion) : Except Json.CanonicalFault Digest := do
  let bytes ← p.toJson.canonicalBytes
  .ok (taggedDigest foldDomain [accumulator.bytes, bytes])

/-- Whether each frame starts where the one before it ended. -/
def isLinked : List Frame → Bool
  | a :: b :: r => a.output = b.input && isLinked (b :: r)
  | _ => true

/-- Accumulates portions from number `index` on, each of which has to start from the end of the one
before. -/
def accumulateAll (accumulator before : Digest) (index : Nat) :
    List Portion → Except Failure Digest
  | [] => .ok accumulator
  | p :: ps => do
    if p.input ≠ before then .error (.proving (.brokenFolding index)) else .ok ()
    if isLinked p.frames then .ok () else .error (.proving (.unlinkedFolding index))
    let next ← orFail .canonical (accumulate accumulator p)
    accumulateAll next p.output (index + 1) ps

/-- The digest that binds all parts of an artifact. -/
def sealOf (params : Digest) (claim : Claim) (z0 zi : Digest) (portionCount frameCount : Nat)
    (accumulator : Digest) : Except Failure Digest := do
  let claimDigest ← orFail .canonical claim.digest
  match countText? portionCount, countText? frameCount with
  | some portions, some frames =>
    .ok (taggedDigest sealDomain [hexBytes params, claimDigest.bytes, hexBytes z0, hexBytes zi,
      portions.toUTF8, frames.toUTF8, hexBytes accumulator])
  | _, _ => .error (.refusal .tooManyDigits)

/-! ## Proving and verifying -/

/-- The artifact of a claim and a trace. -/
def artifact (b : HashFold) (claim : Claim) (trace : Trace) : Except Failure ProofArtifact := do
  let (z0, zi) ← b.checkTrace claim trace
  let params ← orFail .canonical b.params
  let portions ← orFail .proving (b.folding.portions trace.frames)
  let accumulator ← accumulateAll (startAccumulator params.digest z0) z0 0 portions
  let sealDigest ← sealOf params.digest claim z0 zi portions.length trace.frames.length accumulator
  .ok {
    format := ProofArtifact.currentFormat
    version := ProofArtifact.currentVersion
    backend := name
    params := params.digest
    claim
    portionCount := portions.length
    frameCount := trace.frames.length
    z0, zi, accumulator, sealDigest }

/-- The bytes of a proof. -/
def prove (b : HashFold) (claim : Claim) (trace : Trace) : Except Failure ByteArray := do
  let a ← b.artifact claim trace
  orFail .canonical a.toBytes

/-- Checks the bytes of a proof against a claim. -/
def verify (b : HashFold) (claim : Claim) (bytes : ByteArray) : Except Failure Verdict :=
  match ProofArtifact.ofBytes bytes with
  | .error _ => .ok (.rejected .malformedProof "Cannot parse proof")
  | .ok a =>
    if a.format ≠ ProofArtifact.currentFormat ∨ a.version ≠ ProofArtifact.currentVersion then
      .ok (.rejected .malformedProof ("Unsupported proof format " ++ a.format ++ " " ++ a.version))
    else if a.backend ≠ name then
      .ok (.rejected .malformedProof
        ("Proof was produced by backend '" ++ a.backend ++ "', not '" ++ name ++ "'"))
    else do
      let params ← orFail .canonical b.params
      if a.params ≠ params.digest then
        .ok (.rejected .paramsMismatch "Proof was produced under different public parameters")
      else if !a.claim.same claim then
        .ok (.rejected .claimMismatch "Proof does not prove this claim")
      else do
        let start ← orFail .canonical claim.start
        if a.z0 ≠ start then
          .ok (.rejected .invalidTrace "Proof does not start from the claimed call")
        else do
          let expected ← sealOf a.params claim a.z0 a.zi a.portionCount a.frameCount a.accumulator
          if a.sealDigest ≠ expected then
            .ok (.rejected .hashMismatch "Proof seal does not match its content")
          else .ok .accepted

def backend (b : HashFold) : Backend where
  prove claim trace :=
    match b.prove claim trace with
    | .ok bytes => .artifact bytes
    | .error f => .failed f
  verify := b.verify

end HashFold

end CommitChain
