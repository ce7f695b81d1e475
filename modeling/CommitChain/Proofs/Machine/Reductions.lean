import CommitChain.Machine.Run
import CommitChain.Proofs.Json.Canonical

/-!
# Rows of reductions

`Steps n s t` says that `n` reductions lead from `s` to `t`, and `Runs` is the derivation of a
traced run: it has one step for each frame.  A traced run that returns comes from a derivation
(`runs_of_runTraced`), so what holds of its frames is shown by induction on `Runs`.  Frames change
nothing about a run as long as its states have digests (`traced_eq_evaluation`).
-/

namespace CommitChain.Machine

open CommitChain.Hash

inductive Steps : Nat → State → State → Prop
  | zero (s : State) : Steps 0 s s
  | succ {n : Nat} {s t u : State} {family : Family} (first : s.step = .ok (t, family))
      (rest : Steps n t u) : Steps (n + 1) s u

/-- A traced run to the value `v` from the state `s`, which has the digest `before`; its frames are
counted from `k` on. -/
inductive Runs : Nat → Digest → State → List Frame → Value → Prop
  | halt (k : Nat) (before : Digest) (v : Value) : Runs k before (.halt v) [] v
  | step {k : Nat} {before after : Digest} {s t : State} {family : Family} {frames : List Frame}
      {v : Value} (first : s.step = .ok (t, family)) (digest : t.digest = .ok after)
      (rest : Runs (k + 1) after t frames v) :
      Runs k before s (⟨k, before, after, family.name⟩ :: frames) v

/-! ## Rows without frames -/

theorem step_halt_ne_ok {v : Value} {r : State × Family} : (State.halt v).step ≠ .ok r := by
  simp [State.step]

theorem Steps.unique {n : Nat} {s t u : State} (h : Steps n s t) (g : Steps n s u) : t = u := by
  induction h with
  | zero s =>
    cases g
    rfl
  | succ first _ ih =>
    cases g with
    | succ first' rest' =>
      obtain ⟨rfl, _⟩ := Prod.ext_iff.1 (Except.ok.inj (first.symm.trans first'))
      exact ih rest'

/-! ## Traced runs -/

section

variable {limit : Int} {fuel steps : Nat} {before : Digest} {frames : List Frame} {s t : State}

theorem runTraced_halt (v : Value) :
    runTraced limit fuel steps before frames (.halt v) = .ok ⟨⟨v, steps⟩, frames.reverse⟩ := by
  rw [runTraced]

theorem runTraced_zero (h : ∀ v, s ≠ .halt v) :
    runTraced limit 0 steps before frames s = .error (.outOfBudget limit) := by
  rw [runTraced]
  exact h

theorem runTraced_succ (h : ∀ v, s ≠ .halt v) :
    runTraced limit (fuel + 1) steps before frames s
      = match s.step with
        | .error e => .error e
        | .ok (next, family) =>
          match next.digest with
          | .error e => .error e
          | .ok after =>
            runTraced limit fuel (steps + 1) after
              (⟨steps, before, after, family.name⟩ :: frames) next := by
  refine Eq.trans (runTraced.eq_3 _ _ _ _ _ _ h) ?_
  rfl

theorem runs_of_runTraced {r : TracedEvaluation}
    (h : runTraced limit fuel steps before frames s = .ok r) :
    ∃ new, Runs steps before s new r.value ∧ r.frames = frames.reverse ++ new
      ∧ r.steps = steps + new.length ∧ new.length ≤ fuel := by
  induction fuel generalizing steps before frames s with
  | zero =>
    by_cases hs : ∃ v, s = .halt v
    · obtain ⟨v, rfl⟩ := hs
      rw [runTraced_halt] at h
      cases h
      exact ⟨[], .halt _ _ v, (List.append_nil _).symm, rfl, Nat.le_refl _⟩
    · rw [runTraced_zero fun v hv => hs ⟨v, hv⟩] at h
      exact absurd h (by simp)
  | succ fuel ih =>
    by_cases hs : ∃ v, s = .halt v
    · obtain ⟨v, rfl⟩ := hs
      rw [runTraced_halt] at h
      cases h
      exact ⟨[], .halt _ _ v, (List.append_nil _).symm, rfl, Nat.zero_le _⟩
    · rw [runTraced_succ fun v hv => hs ⟨v, hv⟩] at h
      split at h
      · exact absurd h (by simp)
      next next family hstep =>
        split at h
        · exact absurd h (by simp)
        next after hd =>
          obtain ⟨new, hr, hf, hn, hl⟩ := ih h
          refine ⟨_ :: new, .step hstep hd hr, ?_, ?_, Nat.succ_le_succ hl⟩
          · rw [hf, List.reverse_cons, List.append_assoc, List.singleton_append]
          · rw [hn, List.length_cons]
            omega

end

theorem traced_eq_ok {limit : Int} {s : State} {r : TracedEvaluation}
    (h : traced limit s = .ok r) :
    ∃ before, s.digest = .ok before ∧ Runs 0 before s r.frames r.value
      ∧ r.steps = r.frames.length ∧ r.frames.length ≤ limit.toNat := by
  obtain ⟨before, hd, h⟩ := bind_eq_ok.1 h
  obtain ⟨new, hr, hf, hn, hl⟩ := runs_of_runTraced h
  rw [List.reverse_nil, List.nil_append] at hf
  exact ⟨before, hd, hf ▸ hr, by rw [hf, hn, Nat.zero_add], hf ▸ hl⟩

/-! ## Runs without frames -/

/-- Whether a state has a digest. -/
def State.hashable (s : State) : Bool :=
  (s.encode.floatPath? "").isNone && s.encode.canonicalForm.integersFit

theorem State.hashable_iff {s : State} : s.hashable = true ↔ ∃ d, s.digest = .ok d := by
  have hd : (∃ d, s.digest = .ok d) ↔ ∃ d, s.encode.digest stateDomain = .ok d := by
    rw [State.digest, stateDigest]
    cases s.encode.digest stateDomain <;> simp
  rw [hd, hashable, Bool.and_eq_true, Option.isNone_iff_eq_none]
  constructor
  · rintro ⟨hf, hw⟩
    exact ⟨_, Json.digest_eq_ok.2 ⟨hf, hw, rfl⟩⟩
  · rintro ⟨d, h⟩
    obtain ⟨hf, hw, _⟩ := Json.digest_eq_ok.1 h
    exact ⟨hf, hw⟩

/-- The states that at most `fuel` reductions come through. -/
def trail : Nat → State → List State
  | 0, _ => []
  | fuel + 1, s =>
    match s.step with
    | .ok (t, _) => t :: trail fuel t
    | .error _ => []

theorem runTraced_eq_run {limit : Int} {fuel steps : Nat} {before : Digest} {frames : List Frame}
    {s : State} (h : ∀ t ∈ trail fuel s, t.hashable) :
    (runTraced limit fuel steps before frames s).map TracedEvaluation.toEvaluation
      = run limit fuel steps s := by
  induction fuel generalizing steps before frames s with
  | zero => cases s <;> rfl
  | succ fuel ih =>
    by_cases hs : ∃ v, s = .halt v
    · obtain ⟨v, rfl⟩ := hs
      rfl
    have hn : ∀ v, s ≠ .halt v := fun v hv => hs ⟨v, hv⟩
    rw [runTraced_succ hn, run]
    · cases hstep : s.step with
      | error e => rfl
      | ok r =>
        rw [trail, hstep] at h
        obtain ⟨ht, hrest⟩ := List.forall_mem_cons.1 h
        obtain ⟨after, hd⟩ := State.hashable_iff.1 ht
        simp only [hd]
        exact ih hrest
    · exact hn

/-- A run whose states have digests comes to the same with frames and without. -/
theorem traced_eq_evaluation {limit : Int} {s : State} (hs : s.hashable)
    (h : ∀ t ∈ trail limit.toNat s, t.hashable) :
    (traced limit s).map TracedEvaluation.toEvaluation = run limit limit.toNat 0 s := by
  obtain ⟨before, hd⟩ := State.hashable_iff.1 hs
  rw [traced, hd]
  exact runTraced_eq_run h

end CommitChain.Machine
