import CommitChain.Session.Archive

/-!
# Audits

An audit recomputes every content address in a store directory and checks that its steps are
linked.  It works on the files alone and turns every problem into an issue, whatever else it finds.
-/

namespace CommitChain

inductive AuditCode
  | unreadableFile
  | commitmentMismatch
  | proofIdMismatch
  | stepGap
  | stepLinkBroken
  | missingPayload
  | headMismatch
  deriving DecidableEq, Repr

def AuditCode.name : AuditCode → String
  | unreadableFile => "UNREADABLE_FILE"
  | commitmentMismatch => "COMMITMENT_MISMATCH"
  | proofIdMismatch => "PROOF_ID_MISMATCH"
  | stepGap => "STEP_GAP"
  | stepLinkBroken => "STEP_LINK_BROKEN"
  | missingPayload => "MISSING_PAYLOAD"
  | headMismatch => "HEAD_MISMATCH"

structure AuditIssue where
  code : AuditCode
  path : Path
  message : String

structure AuditReport where
  commitmentsChecked : Nat
  proofsChecked : Nat
  stepsChecked : Nat
  head : Option String
  issues : List AuditIssue

namespace AuditReport

/-- A directory is in order if nothing was found. -/
def ok (r : AuditReport) : Bool :=
  r.issues.isEmpty

def toJson (r : AuditReport) : Json :=
  .obj [("ok", .bool r.ok), ("commitments_checked", .int r.commitmentsChecked),
    ("proofs_checked", .int r.proofsChecked), ("steps_checked", .int r.stepsChecked),
    ("head", .ofText? r.head),
    ("issues", .arr (r.issues.map fun i =>
      .obj [("code", .str i.code.name), ("path", .str i.path.text), ("message", .str i.message)]))]

end AuditReport

namespace Audit

open Archive

/-- How an issue words what made a file unreadable. -/
def wording : Failure → String
  | .malformedJson => Failure.malformedJson.message
  | .notUtf8 => Failure.notUtf8.message
  | .refusal (.stepLine path line) => (Refusal.stepLine path line).message
  | .serialization (.canonical .integerTooLong) => Json.CanonicalFault.integerTooLong.message
  | .serialization (.canonical _) => "unreadable"
  | .serialization fault => fault.message
  | _ => "unreadable"

def unreadable (path : Path) (f : Failure) : AuditIssue :=
  ⟨.unreadableFile, path, wording f⟩

/-- The commitment of the payload in a file. -/
def commitmentIn (disk : Disk) (path : Path) : Except Failure Commitment := do
  let x ← disk.loadJson path
  orFail .serialization ((Value.decode x).bind Value.commitment)

/-- Checks one payload: its commitment, or what is wrong. -/
def payload (disk : Disk) (path : Path) (name : String) :
    Except Failure (Commitment ⊕ AuditIssue) :=
  match commitmentIn disk path with
  | .error .misshapen => .error .misshapen
  | .error f => .ok (.inr (unreadable path f))
  | .ok c =>
    if c.hex = String.ofList ((Path.stem name).toList.map Char.toLower) then .ok (.inl c)
    else
      .ok (.inr ⟨.commitmentMismatch, path,
        "payload commits to " ++ c.text ++ ", not 0x" ++ Path.stem name⟩)

/-- Checks one proof. -/
def proof (disk : Disk) (path : Path) (name : String) : Option AuditIssue :=
  match disk.load path with
  | .error f => some (unreadable path f)
  | .ok bytes =>
    if proofIdentifier bytes = Path.stem name then none
    else some ⟨.proofIdMismatch, path, "artifact bytes hash to " ++ proofIdentifier bytes⟩

/-- The text of a number. -/
def count (n : Nat) : String :=
  Text.integerDigits n

/-- The issues of steps from number `position` on, behind a step with the new head `previous`. -/
def steps (file : Path) (committed : List String) (position : Nat) (previous : Option String) :
    List StepRecord → List AuditIssue
  | [] => []
  | r :: rest =>
    (if r.index ≠ position then
      [⟨.stepGap, file, "line " ++ count position ++ " holds step " ++ count r.index⟩]
    else [])
    ++ (match previous with
      | some head =>
        if r.claim.prior ≠ head then
          [⟨.stepLinkBroken, file, "step " ++ count r.index ++ " prior " ++ r.claim.prior
            ++ " is not the previous new head " ++ head⟩]
        else []
      | none => [])
    ++ ([r.claim.prior, r.claim.newHead].filterMap fun c =>
      if committed.contains c then none
      else some ⟨.missingPayload, file,
        "step " ++ count r.index ++ " references " ++ c ++ " with no verified payload file"⟩)
    ++ steps file committed (position + 1) (some r.claim.newHead) rest

/-- The head in the file of the chain, as it stands there. -/
def headIn (disk : Disk) (file : Path) : Except Failure (Option Json) := do
  let x ← disk.loadJson file
  .ok (x.member? "head")

/-- The issues about the head. -/
def headIssues (file : Path) (committed : List String) (last : Option String) (head : String)
    (isText : Bool) : List AuditIssue :=
  (match last with
    | some last =>
      if isText && head = last then []
      else [⟨.headMismatch, file,
        "head " ++ head ++ " is not the last step's new head " ++ last⟩]
    | none => [])
  ++ if isText && committed.contains head then []
    else [⟨.missingPayload, file, "head " ++ head ++ " has no verified payload file"⟩]

/-- What a report says about the file of the chain. -/
def chain (disk : Disk) (root : Path) (committed : List String) (last : Option String) :
    Except Failure (Option String × List AuditIssue) :=
  let file := chainFile root
  if disk.contains file then
    match headIn disk file with
    | .error .misshapen => .error .misshapen
    | .error f => .ok (none, [unreadable file f])
    | .ok none => .ok (none, [unreadable file .misshapen])
    | .ok (some (.str head)) => .ok (some head, headIssues file committed last head true)
    | .ok (some .null) => .ok (none, headIssues file committed last "None" false)
    | .ok (some (.arr _)) | .ok (some (.obj _)) => .error .misshapen
    | .ok (some _) => .error (.invalid "AuditReport" [⟨["head"], .notText⟩])
  else .ok (none, [])

/-- Audits a store directory. -/
def run (disk : Disk) (root : Path) : Except Failure AuditReport := do
  let names := jsonNames disk (commitmentsDir root)
  let payloads ← names.mapM fun name => payload disk (commitmentsDir root ++ [name]) name
  let committed := payloads.filterMap fun | .inl c => some c.text | .inr _ => none
  let proofNames := jsonNames disk (proofsDir root)
  let (records, recordIssues) ← match loadSteps disk root with
    | .ok records => .ok (records, [])
    | .error .misshapen => .error .misshapen
    | .error f => .ok ([], [unreadable (stepsFile root) f])
  let last := records.getLast?.map fun r => r.claim.newHead
  let (head, chainIssues) ← chain disk root committed last
  .ok {
    commitmentsChecked := names.length
    proofsChecked := proofNames.length
    stepsChecked := records.length
    head
    issues :=
      (payloads.filterMap fun | .inl _ => none | .inr issue => some issue)
      ++ (proofNames.filterMap fun name => proof disk (proofsDir root ++ [name]) name)
      ++ recordIssues
      ++ steps (stepsFile root) committed 1 none records
      ++ chainIssues }

end Audit

end CommitChain
