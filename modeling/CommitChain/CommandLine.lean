import CommitChain.CommandLine.Arguments
import CommitChain.Session

/-!
# The command line

A command opens the session of a store directory, runs one directive and shows its result.
`Request` is what the arguments ask for, and `CommandLine.run` carries it out on a disk.
-/

namespace CommitChain

/-- One directive with its arguments. -/
inductive Directive
  | commit (expression : String)
  | chain (commitment input : String) (stepLimit : Option Int)
  | prove (step : Option Int) (timeout : Option Binary64)
  | verify (identifier : String) (file : Option Path)
  | fetch (commitment : String)
  | audit
  | exportProof (identifier : String) (out : Path)

/-- A directive with what all commands have in common. -/
structure Request where
  store : Path
  config : Option Path
  quiet : Bool
  asJson : Bool
  directive : Directive

/-- What the arguments come to. -/
inductive Invocation
  | help
  | version
  | misuse
  | nothing
  | request (r : Request)

namespace CommandLine

/-! ## Reading the arguments -/

/-- The options in front of a command. -/
def mainOptions : List OptionSpec :=
  [.helpOption, .long "version" .version]

/-- The options of every command. -/
def commonOptions : List OptionSpec :=
  [.helpOption, .long "store" .value, .long "config" .value, .long "quiet" .switch,
    .long "verbose" .switch, .long "json" .switch]

/-- The options of a command beside the common ones, and the number of its operands. -/
def shape? : String → Option (List OptionSpec × Nat)
  | "commit" => some ([], 1)
  | "chain" => some ([.long "step-limit" .value], 2)
  | "prove" => some ([.long "step" .value, .long "timeout" .value], 0)
  | "verify" => some ([.long "artifact" .value], 1)
  | "open" => some ([], 1)
  | "audit" => some ([], 0)
  | "export" => some ([.long "out" .value], 1)
  | _ => none

/-- The integer that a text writes. -/
def integerValue? (s : String) : Option Int :=
  match Text.integer? s with
  | .ok n => some n
  | .error _ => none

/-- Whether an option can take a value. -/
def accepts (name value : String) : Bool :=
  match name with
  | "--step-limit" | "--step" => (integerValue? value).isSome
  | "--timeout" => (Binary64.ofText? value).isSome
  | _ => true

/-- The directive of a command whose arguments were read. -/
def directive? (command : String) (c : Arguments.Collected) : Option Directive :=
  match command, c.operands with
  | "commit", [expression] => some (.commit expression)
  | "chain", [commitment, input] =>
    some (.chain commitment input ((c.option? "--step-limit").bind integerValue?))
  | "prove", [] =>
    some (.prove ((c.option? "--step").bind integerValue?)
      ((c.option? "--timeout").bind Binary64.ofText?))
  | "verify", [identifier] => some (.verify identifier ((c.option? "--artifact").map Path.ofText))
  | "open", [commitment] => some (.fetch commitment)
  | "audit", [] => some .audit
  | "export", [identifier] =>
    (c.option? "--out").map fun out => .exportProof identifier (Path.ofText out)
  | _, _ => none

/-- Reads a command and its arguments. -/
def ofCommand (command : String) (arguments : List String) (surplus : Bool) : Invocation :=
  match shape? command with
  | none => .misuse
  | some (options, arity) =>
    match Arguments.read (commonOptions ++ options) accepts arity arguments with
    | .error .help => .help
    | .error .version => .version
    | .error .misuse => .misuse
    | .ok c =>
      match directive? command c with
      | none => .misuse
      | some directive =>
        if surplus || c.surplus then .misuse
        else
          .request {
            store := ((c.option? "--store").map Path.ofText).getD [".chainproof"]
            config := (c.option? "--config").map Path.ofText
            quiet := (c.option? "--quiet").isSome
            asJson := (c.option? "--json").isSome
            directive }

/-- Reads what stands in front of the command, and the command. -/
def ofClassified (surplus : Bool) : List (String × ArgumentClass) → Invocation
  | [] => if surplus then .misuse else .nothing
  | (command, .operand) :: rest => ofCommand command (rest.map Prod.fst) surplus
  | (_, .ending) :: _ => .misuse
  | (_, .unknown) :: rest => ofClassified true rest
  | (_, .option spec value letters) :: rest =>
    match Arguments.plainStop mainOptions spec value letters with
    | some .help => .help
    | some .version => .version
    | some .misuse => .misuse
    | none => ofClassified surplus rest

/-- Reads the arguments of the program. -/
def read (arguments : List String) : Invocation :=
  match Arguments.classifyAll mainOptions arguments with
  | none => .misuse
  | some classified => ofClassified false classified

/-! ## Running -/

/-- What a command comes to: what it shows, with its exit status, or a failure. -/
inductive Outcome
  | shown (status : Nat) (text : String)
  | failed (f : Failure)

/-- The canonical text of a result as a line. -/
def line (x : Json) : Except Failure String := do
  let text ← orFail .canonical x.canonical
  .ok (text ++ "\n")

/-- Lines of text. -/
def lines (ls : List String) : String :=
  String.join (ls.map (· ++ "\n"))

/-- What is shown of a result: nothing, its canonical text, or lines. -/
def shown (r : Request) (x : Json) (ls : List String) : Except Failure String :=
  if r.quiet then .ok "" else if r.asJson then line x else .ok (lines ls)

def mark (ok : Bool) : String :=
  if ok then "[OK] " else "[FAILED] "

def auditLines (report : AuditReport) : List String :=
  [mark report.ok ++ "Audit complete",
    "  Commitments: " ++ report.commitmentsChecked.repr,
    "  Proofs: " ++ report.proofsChecked.repr,
    "  Steps: " ++ report.stepsChecked.repr]
  ++ report.issues.map fun i => "  " ++ i.code.name ++ ": " ++ i.path.text ++ ": " ++ i.message

def claimLines (claim : Claim) : List String :=
  ["  Prior: " ++ claim.prior,
    "  Input: " ++ claim.input.render .spaced,
    "  Output: " ++ claim.output.render .spaced,
    "  New head: " ++ claim.newHead]

def verificationLines (v : Verification) : List String :=
  (mark v.ok ++ v.code)
    :: (match v.reason with
      | some reason => if reason.isEmpty then [] else ["  Reason: " ++ reason]
      | none => [])
    ++ (match v.claim with
      | some claim => claimLines claim
      | none => [])

/-- The settings that a directive overrides. -/
def settings : Directive → List (String × Json)
  | .chain _ _ (some limit) => [("step_limit", .int limit)]
  | _ => []

/-- Runs a directive in a session: the exit status and the text that is shown. -/
def runDirective (r : Request) : Action Session (Nat × String) :=
  match r.directive with
  | .commit expression => do
    let result ← Session.commit expression
    let text ← Action.of (shown r result.toJson [result.commitment.text])
    return (0, text)
  | .chain commitment input _ => do
    let result ← Session.chain commitment input
    let text ← Action.of (shown r result.toJson [result.output, result.newHead.text])
    return (0, text)
  | .prove step timeout => do
    let result ← Session.prove step timeout
    let text ← Action.of (shown r result.toJson [result.identifier])
    return (0, text)
  | .verify identifier file => do
    let s ← Action.state
    let v ← Action.of (s.verify identifier file)
    let text ← Action.of (shown r v.toJson (verificationLines v))
    return (if v.ok then 0 else 1, text)
  | .fetch commitment => do
    let s ← Action.state
    let text ← Action.of (s.fetch commitment)
    return (0, if r.quiet then "" else lines [text])
  | .exportProof identifier out => do
    let path ← Session.exportProof identifier out
    return (0, if r.quiet then ""
      else lines ["[OK] Export complete", "  Artifact: " ++ Path.text path])
  | .audit => return (0, "")

/-- Carries out a request on a disk. -/
def run (r : Request) (disk : Disk) : Outcome × Disk :=
  match r.directive with
  | .audit =>
    match Audit.run disk r.store with
    | .error f => (.failed f, disk)
    | .ok report =>
      match shown r report.toJson (auditLines report) with
      | .error f => (.failed f, disk)
      | .ok text => (.shown (if report.ok then 0 else 1) text, disk)
  | directive =>
    match Session.openAt disk (some r.store) r.config (settings directive) with
    | .error f => (.failed f, disk)
    | .ok session =>
      match runDirective r session with
      | (.error f, session) => (.failed f, session.disk)
      | (.ok (status, text), session) => (.shown status text, session.disk)

/-- The message of a failure that a user can do something about. -/
def message? (f : Failure) : Option String :=
  match f.kind with
  | .engine _ | .value | .canonicalization | .validation | .json | .utf8 | .noSuchFile =>
    some f.message
  | _ => none

end CommandLine

end CommitChain
