import CommitChain.Proofs.Machine.Hereditary
import CommitChain.Proofs.Machine.Returns
import CommitChain.Proofs.Value.Regular

/-!
# The machine keeps values regular

A reduction of a state made of regular values gives such a state again (`State.Regular.step`), so
what such a state returns is regular.
-/

namespace CommitChain.Machine

open CommitChain.Text

/-- All values in what remains to be done are regular. -/
def Pending.Regular : Pending → Prop
  | operands _ waiting done env =>
    (∀ v ∈ waiting, v.Regular) ∧ (∀ v ∈ done, v.Regular) ∧ env.Regular
  | branch thenExpr elseExpr env => thenExpr.Regular ∧ elseExpr.Regular ∧ env.Regular
  | bind name waiting body env =>
    IsNormal name ∧ (∀ p ∈ waiting, IsNormal p.1 ∧ p.2.Regular) ∧ body.Regular ∧ env.Regular
  | sequence waiting env => (∀ v ∈ waiting, v.Regular) ∧ env.Regular

/-- All values in a state are regular. -/
def State.Regular : State → Prop
  | eval expr env stack => expr.Regular ∧ env.Regular ∧ ∀ p ∈ stack, p.Regular
  | ret value stack => value.Regular ∧ ∀ p ∈ stack, p.Regular
  | call fn args _ => fn.Regular ∧ ∀ v ∈ args, v.Regular
  | halt value => value.Regular

theorem Pending.regular_iff {p : Pending} : p.Regular ↔ p.Has .regular := by
  cases p <;> exact Iff.rfl

theorem State.regular_iff {s : State} : s.Regular ↔ s.Has .regular := by
  cases s with
  | eval e env stack => simp only [Regular, Has, Pending.regular_iff, Hereditary.regular]
  | ret v stack => simp only [Regular, Has, Pending.regular_iff, Hereditary.regular]
  | call => exact Iff.rfl
  | halt => exact Iff.rfl

/-- A reduction of a regular state gives a regular state. -/
theorem State.Regular.step {s : State} {r : State × Family} (hs : s.Regular)
    (h : s.step = .ok r) : r.1.Regular :=
  State.regular_iff.2 ((State.regular_iff.1 hs).step h fun _ _ => trivial)

theorem Returns.regular {k : Stack} {n : Nat} {s : State} {v : Value} (h : Returns k n s v)
    (hs : s.Regular) : v.Regular := by
  induction h with
  | done => exact hs.1
  | step waits first rest ih => exact ih (hs.step first)

end CommitChain.Machine
