import CommitChain.Machine.Step
import CommitChain.Trace

/-!
# Runs

A run makes reductions until the machine halts, and at most as many as its limit allows; that it has
halted is seen before the limit is.  A traced run also records a frame for each reduction.
-/

namespace CommitChain.Machine

open CommitChain.Hash

/-- The reductions that a run may take unless told otherwise. -/
def defaultLimit : Int := 10000

/-- What a run comes to. -/
structure Evaluation where
  value : Value
  steps : Nat

/-- What a traced run comes to. -/
structure TracedEvaluation extends Evaluation where
  frames : List Frame

/-- Runs for at most `fuel` more reductions, after `steps` of them. -/
def run (limit : Int) (fuel steps : Nat) (state : State) : Except Fault Evaluation :=
  match state, fuel with
  | .halt value, _ => .ok ⟨value, steps⟩
  | _, 0 => .error (.outOfBudget limit)
  | state, fuel + 1 =>
    match state.step with
    | .error e => .error e
    | .ok (next, _) => run limit fuel (steps + 1) next

/-- The digest of a state. -/
def State.digest (state : State) : Except Fault Digest :=
  match stateDigest state.encode with
  | .ok digest => .ok digest
  | .error fault => .error (.unhashable fault)

/-- Runs like `run` and puts a frame for each reduction in front of `frames`; `before` is the digest
of the state. -/
def runTraced (limit : Int) (fuel steps : Nat) (before : Digest) (frames : List Frame)
    (state : State) : Except Fault TracedEvaluation :=
  match state, fuel with
  | .halt value, _ => .ok ⟨⟨value, steps⟩, frames.reverse⟩
  | _, 0 => .error (.outOfBudget limit)
  | state, fuel + 1 =>
    match state.step with
    | .error e => .error e
    | .ok (next, family) =>
      match next.digest with
      | .error e => .error e
      | .ok after =>
        runTraced limit fuel (steps + 1) after (⟨steps, before, after, family.name⟩ :: frames) next

/-- A traced run from its first state. -/
def traced (limit : Int) (state : State) : Except Fault TracedEvaluation := do
  let before ← state.digest
  runTraced limit limit.toNat 0 before [] state

/-- The value of an expression. -/
def evaluate (limit : Int) (expr : Value) (env : Env) : Except Fault Evaluation :=
  run limit limit.toNat 0 (.eval expr env [])

/-- The value of an expression, with frames. -/
def evaluateTraced (limit : Int) (expr : Value) (env : Env) : Except Fault TracedEvaluation :=
  traced limit (.eval expr env [])

/-- The value of a function at arguments, with frames; the first state names the function by
`ref`. -/
def apply (limit : Int) (fn : Value) (args : List Value) (ref : Json) :
    Except Fault TracedEvaluation :=
  traced limit (.call fn args ref)

end CommitChain.Machine
