import CommitChain.Disk
import CommitChain.Hash.Address
import CommitChain.Json.Check
import CommitChain.Machine.Step
import CommitChain.Reader.Token

/-!
# Failures

Everything that can go wrong, by cause.  `Failure.message?` gives the wording; where it would show a
number too long to print there is none, and the failure becomes one about that number.
`Failure.kind` says what sort of failure it is.  The sorts that the engine knows carry a code, and
some of them are special cases of others.
-/

namespace CommitChain

/-- The sorts of failure that the engine knows. -/
inductive ErrorKind
  | engine
  | serialization
  | unknownCommitment
  | storeConflict
  | headMismatch
  | alreadyStarted
  | notStarted
  | chainFaulted
  | evaluation
  | read
  | proving
  | nothingToProve
  | unknownProof
  deriving DecidableEq, Repr

/-- The wider sorts that a failure can be one of. -/
inductive ErrorFamily
  | value
  | lookup
  | evaluation
  | proving
  | engine
  deriving DecidableEq, Repr

namespace ErrorKind

def all : List ErrorKind :=
  [engine, serialization, unknownCommitment, storeConflict, headMismatch, alreadyStarted,
    notStarted, chainFaulted, evaluation, read, proving, nothingToProve, unknownProof]

def name : ErrorKind → String
  | engine => "ChainProofError"
  | serialization => "SerializationError"
  | unknownCommitment => "UnknownCommitment"
  | storeConflict => "StoreConflict"
  | headMismatch => "HeadMismatch"
  | alreadyStarted => "AlreadyInitialized"
  | notStarted => "NotInitialized"
  | chainFaulted => "ChainFaulted"
  | evaluation => "EvaluationError"
  | read => "ReadError"
  | proving => "ProvingError"
  | nothingToProve => "NothingToProve"
  | unknownProof => "UnknownProof"

def code : ErrorKind → String
  | engine | evaluation => "EVALUATION_ERROR"
  | serialization => "SERIALIZATION_ERROR"
  | unknownCommitment => "UNKNOWN_COMMITMENT"
  | storeConflict => "STORE_CONFLICT"
  | headMismatch => "HEAD_MISMATCH"
  | alreadyStarted => "ALREADY_INITIALIZED"
  | notStarted => "NOT_INITIALIZED"
  | chainFaulted => "CHAIN_FAULTED"
  | read => "READ_ERROR"
  | proving => "PROVING_ERROR"
  | nothingToProve => "NOTHING_TO_PROVE"
  | unknownProof => "UNKNOWN_PROOF"

/-- The wider sorts that a sort belongs to. -/
def families : ErrorKind → List ErrorFamily
  | serialization => [.value, .engine]
  | unknownCommitment | unknownProof => [.lookup, .engine]
  | evaluation | read => [.evaluation, .engine]
  | proving | nothingToProve => [.proving, .engine]
  | _ => [.engine]

/-- The wording of a failure of a sort about the given texts. -/
def wording? : ErrorKind → List String → Option String
  | unknownCommitment, [c] => some s!"Unknown commitment: {c}"
  | unknownProof, [id] => some s!"Unknown proof identifier: {id}"
  | headMismatch, [expected, head] =>
    some s!"Commitment {expected} is not the chain head (head is {head})"
  | unknownCommitment, _ | unknownProof, _ | headMismatch, _ => none
  | _, [message] => some message
  | _, _ => none

end ErrorKind

/-- Why a chain does not accept its own past. -/
inductive ChainFault
  | stopped
  | payloadMismatch (head : Commitment)
  | notContiguous (index : Nat)
  | brokenLink (index : Nat) (prior previous : String)
  | headNotLast (head : Commitment) (last : String)
  | foreignFile (name : String) (actual : Commitment) (root : Path)
  | stepsWithoutHead (root : Path)
  deriving DecidableEq

/-- The text of a number that is not negative, if it is not too long. -/
def countText? (n : Nat) : Option String :=
  Text.integerText? n

def ChainFault.message? : ChainFault → Option String
  | stopped => some "Chain controller is faulted; no further steps accepted"
  | payloadMismatch head => some s!"Payload stored under {head.text} does not match its commitment"
  | notContiguous index =>
    (countText? index).map fun i => s!"Step records are not contiguous at index {i}"
  | brokenLink index prior previous => do
    let i ← countText? index
    let j ← countText? (index - 1)
    some s!"Step {i} prior {prior} does not match step {j} new head {previous}"
  | headNotLast head last =>
    some s!"Persisted head {head.text} is not the new head of the last step {last}"
  | foreignFile name actual root =>
    some (s!"Commitment file {name} holds a payload committing to {actual.text}; "
      ++ s!"run 'chainproof audit' on {root.text}")
  | stepsWithoutHead root => some s!"steps.jsonl present without chain.json in {root.text}"

/-- The wording of a fault of the disk, with the number that the operating system has for it. -/
def Disk.Fault.message : Disk.Fault → String
  | noSuchFile path => "[Errno 2] No such file or directory: " ++ Text.quoted path.text
  | refused path => "[Errno 5] Input/output error: " ++ Text.quoted path.text
  | fileExists path => "[Errno 17] File exists: " ++ Text.quoted path.text
  | notDirectory path => "[Errno 20] Not a directory: " ++ Text.quoted path.text
  | isDirectory path => "[Errno 21] Is a directory: " ++ Text.quoted path.text

/-- Why a step is not proved. -/
inductive ProvingFault
  | noFrames
  | tooManyFrames (count limit : Nat)
  | frameIndex (position index : Nat)
  | frameLink (position : Nat)
  | wrongStart
  | wrongEnd
  | resultNotPair
  | wrongOutput
  | tailNotFunction
  | nextNotEncodable (fault : EncodingFault)
  | wrongNewHead
  | noCircuit (family : String)
  | brokenFolding (step : Nat)
  | unlinkedFolding (step : Nat)
  | foreignRecord (index : Nat)
  | timedOut (index : Nat) (limit : Binary64)
  | backendFailed (index : Nat) (message : String)
  | noRecord (index : Int)

def ProvingFault.message? : ProvingFault → Option String
  | noFrames => some "INVALID_TRACE: trace has no frames"
  | tooManyFrames count limit =>
    some s!"Trace has {count} frames, over the backend limit of {limit}"
  | frameIndex position index =>
    (countText? index).map fun i => s!"INVALID_TRACE: frame {position} has index {i}"
  | frameLink position =>
    let previous := position - 1
    some s!"INVALID_TRACE: frame {position} does not link to frame {previous}"
  | wrongStart => some "INVALID_TRACE: trace does not start from the claimed call"
  | wrongEnd => some "INVALID_TRACE: trace does not halt with the recorded result"
  | resultNotPair => some "INVALID_TRACE: result is not a pair (output . next-function)"
  | wrongOutput => some "INVALID_TRACE: result output differs from the claimed output"
  | tailNotFunction => some "INVALID_TRACE: result tail is not a function"
  | nextNotEncodable fault =>
    some ("INVALID_TRACE: next function is not encodable: " ++ fault.message)
  | wrongNewHead => some "INVALID_TRACE: next function does not hash to the claimed new head"
  | noCircuit family => some s!"Frame meta '{family}' has no circuit"
  | brokenFolding step =>
    let previous : Int := step - 1
    some s!"INVALID_TRACE: folding step {step} does not continue step {previous}"
  | unlinkedFolding step => some s!"Folding step {step} failed its running verification"
  | foreignRecord index =>
    (countText? index).map fun i => s!"Step record {i} was not produced by this chain"
  | timedOut index limit => do
    let i ← countText? index
    let seconds := limit.text
    some s!"Proving step {i} timed out after {seconds}s"
  | backendFailed index message => do
    let i ← countText? index
    some s!"Proof backend failed on step {i}: {message}"
  | noRecord index =>
    (Text.integerText? index).map fun i => s!"No step record with index {i}"

/-- Why something given to the engine is unusable. -/
inductive Refusal
  | commitmentText (text : String)
  | addressSize (size : Nat)
  | commitmentSize (size : Nat)
  | stepLimit
  | folding (kind : String)
  | reductionCount
  | notStored
  | integerText (text : String)
  | notANumber
  | configShape (path : Path)
  | configJson (path : Path)
  | stepLine (path : Path) (line : Nat)
  | tooManyDigits
  deriving DecidableEq

def Refusal.message : Refusal → String
  | commitmentText text =>
    s!"Commitment must be '0x' followed by 64 hex characters, got '{text}'"
  | addressSize size => s!"expected 32-byte digest, got {size}"
  | commitmentSize size => s!"Commitment digest must be 32 bytes, got {size}"
  | stepLimit => "step_limit must be positive"
  | folding kind => s!"folding kind must be 'ivc' or 'nivc', got '{kind}'"
  | reductionCount => "reduction_count must be at least 1"
  | notStored => "Session has no store directory to audit"
  | notANumber => "cannot convert float NaN to integer"
  | integerText text =>
    -- a long text is cut off
    "invalid literal for int() with base 10: " ++ String.ofList ((Text.quoted text).toList.take 200)
  | configShape path => s!"Invalid config {path.text}"
  | configJson path => s!"Invalid JSON in config {path.text}"
  | stepLine path line => s!"{path.text}:{line}: invalid step record"
  | tooManyDigits => Json.digitsMessage

inductive Failure
  | serialization (fault : EncodingFault)
  | canonical (fault : Json.CanonicalFault)
  | unknownCommitment (c : Commitment)
  | storeConflict (key : String)
  | headMismatch (expected head : Commitment)
  | alreadyStarted (head : Commitment)
  | notStarted
  | chainFaulted (fault : ChainFault)
  | evaluation (fault : Machine.Fault)
  | notAFunction (head : Commitment) (v : Value)
  | noNextFunction (v : Value)
  | read (fault : ReadFault)
  | proving (fault : ProvingFault)
  | nothingToProve (attached : Bool)
  | unknownProof (identifier : String)
  | refusal (reason : Refusal)
  | invalid (model : String) (issues : List Issue)
  | malformedJson
  | notUtf8
  | noRecord (index : Int)
  | notApplicable (v : Value)
  | disk (fault : Disk.Fault)
  /-- A listener or a backend gave up with a message of its own. -/
  | stopped (message : String)
  /-- A part of a file or an argument has a shape that is nowhere provided for. -/
  | misshapen

namespace Failure

/-- What a failure is reported as. -/
inductive Kind
  | engine (kind : ErrorKind)
  | value
  | canonicalization
  | index
  | type
  | validation
  | json
  | utf8
  | noSuchFile
  | isDirectory
  | notDirectory
  | fileExists
  | runtime
  | unexpected
  deriving DecidableEq, Repr

/-- The wording of a failure, unless it shows a number too long to print. -/
def message? : Failure → Option String
  | serialization fault => some fault.message
  | canonical fault => some fault.message
  | unknownCommitment c => ErrorKind.unknownCommitment.wording? [c.text]
  | storeConflict key => some s!"Different content offered for existing key {key}"
  | headMismatch expected head => ErrorKind.headMismatch.wording? [expected.text, head.text]
  | alreadyStarted head => some s!"Chain already initialized (head {head.text})"
  | notStarted => some "Chain is not initialized; call initialize() first"
  | chainFaulted fault => fault.message?
  | evaluation fault => fault.message?
  | notAFunction head v =>
    v.print?.map fun text => s!"Committed value {head.text} is not a function: {text}"
  | noNextFunction v =>
    v.print?.map fun text =>
      s!"Chained function must return a pair (output . next-function), got {text}"
  | read fault => some fault.message
  | proving fault => fault.message?
  | nothingToProve attached =>
    some (if attached then "No unproven chain step" else "No chain attached to this proof manager")
  | unknownProof identifier => ErrorKind.unknownProof.wording? [identifier]
  | refusal reason => some reason.message
  | invalid model _ => some s!"validation error for {model}"
  | malformedJson => some "invalid JSON"
  | notUtf8 => some "invalid UTF-8"
  | noRecord index => (ProvingFault.noRecord index).message?
  | notApplicable v => v.print?.map fun text => s!"not a function: {text}"
  | disk fault => some fault.message
  | stopped message => some message
  | misshapen => some "data of an unexpected shape"

/-- The kind of a failure whose wording can be given. -/
def statedKind : Failure → Kind
  | serialization _ => .engine .serialization
  | canonical _ => .canonicalization
  | unknownCommitment _ => .engine .unknownCommitment
  | storeConflict _ => .engine .storeConflict
  | headMismatch .. => .engine .headMismatch
  | alreadyStarted _ => .engine .alreadyStarted
  | notStarted => .engine .notStarted
  | chainFaulted _ => .engine .chainFaulted
  | evaluation _ | notAFunction .. | noNextFunction _ => .engine .evaluation
  | read _ => .engine .read
  | proving _ => .engine .proving
  | nothingToProve _ => .engine .nothingToProve
  | unknownProof _ => .engine .unknownProof
  | refusal _ => .value
  | invalid .. => .validation
  | malformedJson => .json
  | notUtf8 => .utf8
  | noRecord _ => .index
  | notApplicable _ => .type
  | disk (.noSuchFile _) => .noSuchFile
  | disk (.isDirectory _) => .isDirectory
  | disk (.notDirectory _) => .notDirectory
  | disk (.fileExists _) => .fileExists
  | disk (.refused _) | stopped _ => .runtime
  | misshapen => .unexpected

def kind (f : Failure) : Kind :=
  if f.message?.isSome then f.statedKind else .value

def message (f : Failure) : String :=
  f.message?.getD Refusal.tooManyDigits.message

end Failure

/-- Gives the fault of a part as a failure of the whole. -/
def orFail {ε α : Type} (wrap : ε → Failure) : Except ε α → Except Failure α
  | .ok a => .ok a
  | .error e => .error (wrap e)

end CommitChain
