import CommitChain.Number.Reading
import CommitChain.Session

/-!
# Sentinels

A workload of fixed shape, by which the speed of the engine is watched, and the budgets for it.  A
budget is a number of milliseconds that a setting of the environment may replace.
-/

namespace CommitChain.Sentinel

/-- A running sum with a branch in each step, so that traces have frames of several families. -/
def source : String :=
  "(letrec ((acc (lambda (total) (lambda (x)"
    ++ " (let ((n (if (< x 0) (- total x) (+ total x)))) (cons n (acc n))))))) (acc 0))"

/-- The budget that a setting gives; without one, or with one that is no number, the default. -/
def budget (setting : Option String) (default : Binary64) : Binary64 :=
  match setting with
  | none => default
  | some s => if s.isEmpty then default else (Binary64.ofText? s).getD default

/-- The input of a step: every third one is negative. -/
def input (i : Nat) : Int :=
  if i % 3 = 0 then -(i : Int) else i

/-- Chains the inputs from number `i` on from a head; gives the last head. -/
def chainFrom (head : Commitment) (i : Nat) : Nat → Action Session Commitment
  | 0 => return head
  | n + 1 => do
    let r ← Session.chain head.text (Text.integerDigits (input i))
    chainFrom r.newHead (i + 1) n

/-- Chains a number of inputs in a fresh session in memory; gives the last head. -/
def run (steps : Nat) : Action Session Commitment := do
  let r ← Session.commit source
  chainFrom r.commitment 0 steps

/-- The outcome of `run` and the session it leaves. -/
def outcome (steps : Nat) : Except Failure (Commitment × Session) := do
  let session ← Session.make .default none .empty
  match run steps session with
  | (.ok head, session) => .ok (head, session)
  | (.error e, _) => .error e

end CommitChain.Sentinel
