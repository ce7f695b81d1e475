import CommitChain.Proofs.Action
import CommitChain.Proofs.Outcome

/-!
# Failures with a code

Failures of the sorts that the engine knows carry a code.  One whose wording would show a number too
long to print is no longer of its sort, so what fails with a code or not at all is followed step by
step here.
-/

namespace CommitChain

variable {ε α β σ τ : Type}

/-- A failure of a sort that the engine knows. -/
def Failure.Coded (f : Failure) : Prop :=
  ∃ sort, f.kind = .engine sort

/-- A failure of the engine is one if it has a wording. -/
theorem Failure.coded_iff {f : Failure} {sort : ErrorKind} (h : f.statedKind = .engine sort) :
    f.Coded ↔ f.message?.isSome := by
  rw [Coded, kind, h]
  by_cases hm : f.message?.isSome <;> simp [hm]

/-- An outcome that is no failure without a code. -/
def FailsCoded (r : Except Failure α) : Prop :=
  ∀ f, r = .error f → f.Coded

theorem failsCoded_ok (a : α) : FailsCoded (.ok a : Except Failure α) :=
  fun _ h => by cases h

theorem failsCoded_error {f : Failure} : FailsCoded (.error f : Except Failure α) ↔ f.Coded :=
  ⟨fun h => h f rfl, fun h _ he => by cases he; exact h⟩

theorem failsCoded_orFail {wrap : ε → Failure} {x : Except ε α}
    (h : ∀ e, x = .error e → (wrap e).Coded) : FailsCoded (orFail wrap x) := by
  cases x with
  | ok a => exact failsCoded_ok a
  | error e => exact failsCoded_error.2 (h e rfl)

theorem failsCoded_serialization (x : Except EncodingFault α) :
    FailsCoded (orFail .serialization x) :=
  failsCoded_orFail fun _ _ => ⟨.serialization, rfl⟩

theorem failsCoded_bind {x : Except Failure α} {f : α → Except Failure β} (hx : FailsCoded x)
    (hf : ∀ a, x = .ok a → FailsCoded (f a)) : FailsCoded (x >>= f) := by
  cases x with
  | ok a => exact hf a rfl
  | error e => exact failsCoded_error.2 (failsCoded_error.1 hx)

/-- What is done in turn fails with a code if each part does. -/
theorem Action.failsCoded_bind {x : Action σ α} {f : α → Action σ β} {s : σ}
    (hx : FailsCoded (x s).1) (hf : ∀ a s', x s = (.ok a, s') → FailsCoded (f a s').1) :
    FailsCoded ((x >>= f) s).1 := by
  cases h : x s with
  | mk r s' =>
    cases r with
    | ok a =>
      rw [bind_ok h]
      exact hf a s' h
    | error e =>
      rw [bind_error h]
      rw [h] at hx
      exact failsCoded_error.2 (failsCoded_error.1 hx)

end CommitChain
