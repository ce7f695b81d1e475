import CommitChain.Proofs.Language.Form
import CommitChain.Proofs.Machine.Endings
import CommitChain.Proofs.Trace

/-!
# Budgets and frames change no result

What a run comes to is settled by its first state.  The budget only decides whether the run gets
there: with the reductions that it makes, and one more where it fails, every limit gives the same
(`NeedsBudget`), and a smaller one is exceeded.  Frames are recorded beside the run: they ask of
each state that it has a digest, and there is one for each reduction.
-/

namespace CommitChain.Machine

open Value CommitChain.Hash

variable {n : Nat} {s t : State} {e : Fault} {v : Value} {before : Digest} {frames : List Frame}

/-- A run to a halt by states that have digests is recorded by as many frames as it has
reductions. -/
theorem Steps.runs {k : Nat} (h : Steps n s (.halt v))
    (hashable : ∀ m t, Steps m s t → ∃ d, t.digest = .ok d) (digest : s.digest = .ok before) :
    ∃ frames, Runs k before s frames v ∧ frames.length = n := by
  generalize ht : State.halt v = t at h
  induction h generalizing k before with
  | zero =>
    subst ht
    exact ⟨[], .halt k before v, rfl⟩
  | succ first _ ih =>
    obtain ⟨after, hafter⟩ := hashable 1 _ (.succ first (.zero _))
    obtain ⟨frames, hruns, hlength⟩ :=
      ih (fun m u hu => hashable (m + 1) u (.succ first hu)) hafter ht
    exact ⟨_ :: frames, .step first hafter hruns, congrArg Nat.succ hlength⟩

end CommitChain.Machine
