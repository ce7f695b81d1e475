import CommitChain.Proof.Folding
import CommitChain.Record

/-!
# Proof artifacts

What a proof says, and the bytes that say it.  The bytes are the canonical text of the artifact;
reading accepts any JSON text of the right shape.
-/

namespace CommitChain

open CommitChain.Hash

/-- The outcome of a verification. -/
inductive VerificationCode
  | ok
  | malformedProof
  | hashMismatch
  | invalidTrace
  | claimMismatch
  | paramsMismatch
  deriving DecidableEq, Repr

def VerificationCode.name : VerificationCode → String
  | ok => "OK"
  | malformedProof => "MALFORMED_PROOF"
  | hashMismatch => "HASH_MISMATCH"
  | invalidTrace => "INVALID_TRACE"
  | claimMismatch => "CLAIM_MISMATCH"
  | paramsMismatch => "PARAMS_MISMATCH"

/-- What a verification reports; the claim of a proof that is accepted goes with it. -/
structure Verification where
  identifier : String
  ok : Bool
  code : String
  reason : Option String
  claim : Option Claim

namespace Verification

def check : Check Verification :=
  Check.object ["identifier", "ok", "code", "reason", "claim"] fun ms path =>
    Verification.mk <$> Check.member "identifier" Check.text ms path
      <*> Check.member "ok" Check.truth ms path
      <*> Check.member "code" Check.text ms path
      <*> Check.memberOr "reason" none (Check.optional Check.text) ms path
      <*> Check.memberOr "claim" none (Check.optional Claim.check) ms path

def toJson (v : Verification) : Json :=
  .obj [("identifier", .str v.identifier), ("ok", .bool v.ok), ("code", .str v.code),
    ("reason", .ofText? v.reason), ("claim", (v.claim.map Claim.toJson).getD .null)]

end Verification

structure ProofArtifact where
  format : String
  version : String
  backend : String
  params : Digest
  claim : Claim
  portionCount : Nat
  frameCount : Nat
  z0 : Digest
  zi : Digest
  accumulator : Digest
  sealDigest : Digest

namespace ProofArtifact

def currentFormat : String := "chainproof.proof"
def currentVersion : String := "0.1"

def check : Check ProofArtifact :=
  Check.object ["format", "version", "backend", "params", "claim", "num_steps", "num_frames", "z0",
      "zi", "accumulator", "seal"] fun ms path =>
    ProofArtifact.mk <$> Check.memberOr "format" currentFormat Check.text ms path
      <*> Check.memberOr "version" currentVersion Check.text ms path
      <*> Check.member "backend" Check.text ms path
      <*> Check.member "params" Check.digest ms path
      <*> Check.member "claim" Claim.check ms path
      <*> Check.member "num_steps" (Check.atLeast 1) ms path
      <*> Check.member "num_frames" (Check.atLeast 1) ms path
      <*> Check.member "z0" Check.digest ms path
      <*> Check.member "zi" Check.digest ms path
      <*> Check.member "accumulator" Check.digest ms path
      <*> Check.member "seal" Check.digest ms path

def toJson (a : ProofArtifact) : Json :=
  .obj [("format", .str a.format), ("version", .str a.version), ("backend", .str a.backend),
    ("params", .str a.params.hex), ("claim", a.claim.toJson), ("num_steps", .int a.portionCount),
    ("num_frames", .int a.frameCount), ("z0", .str a.z0.hex), ("zi", .str a.zi.hex),
    ("accumulator", .str a.accumulator.hex), ("seal", .str a.sealDigest.hex)]

def toBytes (a : ProofArtifact) : Except Json.CanonicalFault ByteArray :=
  a.toJson.canonicalBytes

/-- Why bytes are no artifact. -/
inductive Fault
  | notUtf8
  | notJson (fault : Json.Fault)
  | invalid (issues : List Issue)

def ofBytes (bytes : ByteArray) : Except Fault ProofArtifact :=
  match String.fromUTF8? bytes with
  | none => .error .notUtf8
  | some s =>
    match Json.parse s with
    | .error fault => .error (.notJson fault)
    | .ok x =>
      match check.run x with
      | .error issues => .error (.invalid issues)
      | .ok a => .ok a

end ProofArtifact

end CommitChain
