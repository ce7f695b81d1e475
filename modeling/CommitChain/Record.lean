import CommitChain.Hash.Address
import CommitChain.Json.Check
import CommitChain.Machine.State
import CommitChain.Trace

/-!
# Claims and step records

A claim is the public statement about one step of a chain: the function committed under `prior`,
applied to `input`, gives `output`, and the next function is committed under `newHead`.  A step
record is a claim with its number in the chain and the trace of the evaluation.

Input and output are encodings as they came; a check makes sure that they can be decoded and hashed.
-/

namespace CommitChain

structure Claim where
  prior : String
  input : Json
  output : Json
  newHead : String

/-- One step of a chain; steps count from one. -/
structure StepRecord where
  index : Nat
  claim : Claim
  trace : Trace

/-! ## Checks -/

/-- A digest of 64 lowercase digits. -/
def Check.digest : Check Hash.Digest := fun path x =>
  (Check.text path x).andThen fun s =>
    match Hash.Digest.ofHex? s with
    | some d => .good d
    | none =>
      fail path (.custom s!"digest must be 64 lowercase hex characters, got '{s}'")

/-- A text of the form of a commitment. -/
def Check.commitmentText : Check String :=
  Check.text.ensure fun s =>
    if Commitment.isText s then none
    else some s!"commitment must be '0x' + 64 lowercase hex characters, got '{s}'"

/-- What is wrong with a tree as the encoding of a value. -/
def encodingProblem? (x : Json) : Option String :=
  match Value.decode x, x.canonical with
  | .error fault, _ => some fault.message
  | .ok _, .error fault => some fault.message
  | .ok _, .ok _ => none

/-- The encoding of a value. -/
def Check.encoding : Check Json :=
  Check.any.ensure encodingProblem?

def Frame.check : Check Frame :=
  Check.object ["index", "input", "output", "meta"] fun ms path =>
    Frame.mk <$> Check.member "index" (Check.atLeast 0) ms path
      <*> Check.member "input" Check.digest ms path
      <*> Check.member "output" Check.digest ms path
      <*> Check.memberOr "meta" Family.core.name Check.text ms path

def Trace.check : Check Trace :=
  Check.object ["frames", "result"] fun ms path =>
    Trace.mk <$> Check.member "frames" (Check.array Frame.check) ms path
      <*> Check.member "result" Check.any ms path

/-- The members of a claim. -/
def Claim.checkMembers (ms : List (String × Json)) (path : List String) : Checked Claim :=
  Claim.mk <$> Check.member "prior" Check.commitmentText ms path
    <*> Check.member "input" Check.encoding ms path
    <*> Check.member "output" Check.encoding ms path
    <*> Check.member "new_head" Check.commitmentText ms path

def Claim.check : Check Claim :=
  Check.object ["prior", "input", "output", "new_head"] Claim.checkMembers

def StepRecord.check : Check StepRecord :=
  Check.object ["index", "prior", "input", "output", "new_head", "trace"] fun ms path =>
    StepRecord.mk <$> Check.member "index" (Check.atLeast 1) ms path
      <*> Claim.checkMembers ms path
      <*> Check.member "trace" Trace.check ms path

/-! ## Trees -/

def Frame.toJson (f : Frame) : Json :=
  .obj [("index", .int f.index), ("input", .str f.input.hex), ("output", .str f.output.hex),
    ("meta", .str f.family)]

def Trace.toJson (t : Trace) : Json :=
  .obj [("frames", .arr (t.frames.map Frame.toJson)), ("result", t.result)]

/-- The members of a claim. -/
def Claim.members (c : Claim) : List (String × Json) :=
  [("prior", .str c.prior), ("input", c.input), ("output", c.output), ("new_head", .str c.newHead)]

def Claim.toJson (c : Claim) : Json :=
  .obj c.members

def StepRecord.toJson (r : StepRecord) : Json :=
  .obj (("index", .int r.index) :: r.claim.members ++ [("trace", r.trace.toJson)])

/-! ## Equality and digests -/

/-- Equality of claims; their encodings are compared by value. -/
def Claim.same (a b : Claim) : Bool :=
  a.prior == b.prior && a.input.same b.input && a.output.same b.output && a.newHead == b.newHead

/-- Equality of step records. -/
def StepRecord.same (a b : StepRecord) : Bool :=
  a.index == b.index && a.claim.same b.claim && a.trace.frames == b.trace.frames
    && a.trace.result.same b.trace.result

/-- The digest of a claim. -/
def Claim.digest (c : Claim) : Except Json.CanonicalFault Hash.Digest :=
  c.toJson.digest Hash.claimDomain

/-- The digest of the state in which the step of a claim starts. -/
def Claim.start (c : Claim) : Except Json.CanonicalFault Hash.Digest :=
  Machine.stateDigest (Machine.callState (.str c.prior) [c.input])

end CommitChain
