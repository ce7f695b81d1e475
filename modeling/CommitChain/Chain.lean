import CommitChain.Commitment
import CommitChain.Machine.Run
import CommitChain.Record

/-!
# Chains

A chain has one head, the commitment of a function.  A step applies that function to an input; the
result is a pair of an output and the next function, which becomes the new head.  Steps are
recorded, and the head moves only after every listener has accepted the record.

`start` makes a committed function the head of a fresh chain, `resume` takes up a recorded one, and
`advance` makes a step.
-/

namespace CommitChain

/-- What evaluates functions for a chain. -/
abbrev Evaluator := Value → List Value → Json → Except Failure Machine.TracedEvaluation

/-- The machine with a limit on reductions. -/
def Machine.evaluator (limit : Int) : Evaluator := fun fn args ref =>
  orFail .evaluation (Machine.apply limit fn args ref)

/-- Where a chain stands. -/
inductive Standing
  | fresh
  | active (head : Commitment)
  | faulted (head : Commitment)
  deriving DecidableEq

def Standing.name : Standing → String
  | fresh => "uninitialized"
  | active _ => "active"
  | faulted _ => "faulted"

def Standing.head? : Standing → Option Commitment
  | fresh => none
  | active head | faulted head => some head

/-- Puts a number into an ascending list, once. -/
def insertNumber (n : Int) : List Int → List Int
  | [] => [n]
  | m :: r => if n = m then m :: r else if n < m then n :: m :: r else m :: insertNumber n r

structure Chain (ω : Type) where
  evaluator : Evaluator
  standing : Standing
  /-- The steps, the first one first. -/
  history : List StepRecord
  /-- The numbers of the steps that are proved, in ascending order. -/
  proven : List Int
  /-- They hear of each step, with the numbers proved so far, before the head moves. -/
  listeners : List (StepRecord → List Int → Action ω Unit)

namespace Chain

variable {ω : Type}

/-- A chain that was not started. -/
def fresh (evaluator : Evaluator) : Chain ω :=
  ⟨evaluator, .fresh, [], [], []⟩

def head? (c : Chain ω) : Option Commitment :=
  c.standing.head?

def subscribe (c : Chain ω) (listener : StepRecord → List Int → Action ω Unit) : Chain ω :=
  { c with listeners := c.listeners ++ [listener] }

/-! ## Records -/

/-- The record of a step. -/
def record? (c : Chain ω) (index : Int) : Option StepRecord :=
  if 1 ≤ index then c.history[index.toNat - 1]? else none

/-- Whether a record is the one of this chain under its number. -/
def owns (c : Chain ω) (r : StepRecord) : Bool :=
  match c.record? r.index with
  | some own => own.same r
  | none => false

def isProven (c : Chain ω) (index : Int) : Bool :=
  c.proven.contains index

/-- The steps that are not proved, the first one first. -/
def pending (c : Chain ω) : List StepRecord :=
  c.history.filter fun r => !c.isProven r.index

def markProven (c : Chain ω) (index : Int) : Chain ω :=
  { c with proven := insertNumber index c.proven }

/-! ## Starting and resuming -/

/-- Makes a committed value the head of a fresh chain. -/
def start (payloads : Payloads ω) (genesis : Commitment) (c : Chain ω) :
    Except Failure (Chain ω) :=
  match c.standing with
  | .active head | .faulted head => .error (.alreadyStarted head)
  | .fresh => do
    let _ ← payloads.fetch genesis
    .ok { c with standing := .active genesis }

/-- What is wrong with records as the steps from number `position` on, behind a step with the new
head `previous`. -/
def linkFault? (position : Nat) (previous : Option String) : List StepRecord → Option ChainFault
  | [] => none
  | r :: rest =>
    if r.index ≠ position then some (.notContiguous r.index)
    else
      match previous with
      | some head =>
        if head ≠ r.claim.prior then some (.brokenLink r.index r.claim.prior head)
        else linkFault? (position + 1) (some r.claim.newHead) rest
      | none => linkFault? (position + 1) (some r.claim.newHead) rest

/-- Takes up a chain from its head and the records of its steps, in any order. -/
def resume (payloads : Payloads ω) (evaluator : Evaluator) (head : Commitment)
    (records : List StepRecord) (proven : List Int) : Except Failure (Chain ω) := do
  let ordered := records.mergeSort fun a b => decide (a.index ≤ b.index)
  match linkFault? 1 none ordered with
  | some fault => .error (.chainFaulted fault)
  | none =>
    match ordered.getLast? with
    | some r =>
      if r.claim.newHead ≠ head.text then
        .error (.chainFaulted (.headNotLast head r.claim.newHead))
    | none => .ok ()
    let _ ← payloads.fetch head
    let known := proven.filter fun i => 1 ≤ i && i ≤ (ordered.length : Int)
    .ok ⟨evaluator, .active head, ordered, known.foldl (fun acc i => insertNumber i acc) [], []⟩

/-! ## Stepping -/

/-- What a step produced. -/
structure Step where
  output : Value
  next : Value
  newHead : Commitment
  record : StepRecord

/-- What is wrong with a record that is about to be made. -/
def recordIssues (r : StepRecord) : List Issue :=
  ([("input", r.claim.input), ("output", r.claim.output)].filterMap fun (name, x) =>
    (encodingProblem? x).map fun message => ⟨[name], .custom message⟩)

/-- Checks the head against the caller's and gets its function. -/
def headFunction (expected : Commitment) : Action (Chain ω × Payloads ω × ω) Value :=
  fun (c, payloads, world) =>
    match c.standing with
    | .fresh => (.error .notStarted, c, payloads, world)
    | .faulted _ => (.error (.chainFaulted .stopped), c, payloads, world)
    | .active head =>
      if expected ≠ head then (.error (.headMismatch expected head), c, payloads, world)
      else
        match payloads.fetch head with
        | .error e => (.error e, c, payloads, world)
        | .ok payload =>
          match payload.value.commitment with
          | .error fault => (.error (.serialization fault), c, payloads, world)
          | .ok actual =>
            if actual ≠ head then
              (.error (.chainFaulted (.payloadMismatch head)),
                { c with standing := .faulted head }, payloads, world)
            else if payload.value.isFunction then (.ok payload.value, c, payloads, world)
            else (.error (.notAFunction head payload.value), c, payloads, world)

/-- The output and the next function of a result. -/
def splitResult : Value → Except Failure (Value × Value)
  | .cons output next =>
    if next.isFunction then .ok (output, next) else .error (.noNextFunction (.cons output next))
  | v => .error (.noNextFunction v)

/-- Applies the function of the head, which must be the expected one, to an input and moves the
head. -/
def advance (expected : Commitment) (input : Value) : Action (Chain ω × Payloads ω × ω) Step := do
  let fn ← headFunction expected
  let (chain, _, _) ← Action.state
  let inputEncoding ← Action.of (orFail .serialization input.encodeStrict)
  let result ← Action.of (chain.evaluator fn [input] (.str expected.text))
  let (output, next) ← Action.of (splitResult result.value)
  let outputEncoding ← Action.of (orFail .serialization output.encodeStrict)
  let resultEncoding ← Action.of (orFail .serialization result.value.encodeStrict)
  let newHead ← Action.on Prod.snd (fun s t => (s.1, t)) (Payloads.commit next)
  let record : StepRecord := {
    index := chain.history.length + 1
    claim := ⟨expected.text, inputEncoding, outputEncoding, newHead.text⟩
    trace := ⟨result.frames, resultEncoding⟩ }
  let issues := recordIssues record
  if issues.isEmpty then
    Action.on (fun s => s.2.2) (fun s w => (s.1, s.2.1, w))
      (Action.all (chain.listeners.map fun listener => listener record chain.proven))
    Action.update fun (c, rest) =>
      ({ c with history := c.history ++ [record], standing := .active newHead }, rest)
    return ⟨output, next, newHead, record⟩
  else Action.fail (.invalid "StepRecord" issues)

end Chain

end CommitChain
