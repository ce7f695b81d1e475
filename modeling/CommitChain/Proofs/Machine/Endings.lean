import CommitChain.Proofs.Machine.Reductions

/-!
# How runs end

A run that returns has reduced its first state to a halt with the value.  A run that fails is out of
budget or has come to a state whose reduction fails; with frames it may also have come before a
state without a digest.  `Stops` is the derivation of a traced run that fails, as `Runs` is of one
that returns.

An ending tells what the run comes to on every budget: it takes its reductions, and the one that
fails, and is out of budget with fewer (`Steps.run_halt`, `Steps.run_fails`, `Runs.runTraced`,
`Stops.runTraced`).
-/

namespace CommitChain.Machine

open CommitChain.Hash

/-- The state has not halted, and its reduction fails. -/
structure State.Fails (s : State) (e : Fault) : Prop where
  running : ∀ v, s ≠ .halt v
  fault : s.step = .error e

/-- A traced run from `s` makes `n` reductions and fails at the next one. -/
inductive Stops : Nat → State → Fault → Prop
  | reduction {s : State} {e : Fault} (fails : s.Fails e) : Stops 0 s e
  | digest {s t : State} {family : Family} {e : Fault} (first : s.step = .ok (t, family))
      (digest : t.digest = .error e) : Stops 0 s e
  | later {n : Nat} {s t : State} {family : Family} {after : Digest} {e : Fault}
      (first : s.step = .ok (t, family)) (digest : t.digest = .ok after) (rest : Stops n t e) :
      Stops (n + 1) s e

variable {n : Nat} {s t : State} {e : Fault} {v : Value}

theorem not_halt_of_step {r : State × Family} (first : s.step = .ok r) : ∀ v, s ≠ .halt v := by
  rintro v rfl
  exact step_halt_ne_ok first

theorem Runs.steps {k : Nat} {before : Digest} {frames : List Frame}
    (h : Runs k before s frames v) : Steps frames.length s (.halt v) := by
  induction h with
  | halt => exact .zero _
  | step first _ _ ih => exact .succ first ih

theorem unhashable_of_digest (h : s.digest = .error e) : ∃ fault, e = .unhashable fault := by
  rw [State.digest] at h
  split at h
  · cases h
  next fault _ =>
    cases h
    exact ⟨fault, rfl⟩

/-- Where a traced run stops, the reduction fails or the next state has no digest. -/
theorem Stops.exists_steps (h : Stops n s e) :
    ∃ t, Steps n s t ∧
      (t.Fails e ∨ ∃ u family, t.step = .ok (u, family) ∧ u.digest = .error e) := by
  induction h with
  | reduction fails => exact ⟨_, .zero _, .inl fails⟩
  | digest first digest => exact ⟨_, .zero _, .inr ⟨_, _, first, digest⟩⟩
  | later first _ _ ih =>
    obtain ⟨t, hsteps, hstop⟩ := ih
    exact ⟨t, .succ first hsteps, hstop⟩

/-! ## Runs without frames -/

variable {limit : Int} {fuel steps : Nat}

theorem run_zero (h : ∀ v, s ≠ .halt v) :
    run limit 0 steps s = .error (.outOfBudget limit) := by
  cases s with
  | halt v => exact absurd rfl (h v)
  | _ => rfl

theorem run_next (h : ∀ v, s ≠ .halt v) :
    run limit (fuel + 1) steps s
      = match s.step with
        | .error e => .error e
        | .ok (next, _) => run limit fuel (steps + 1) next := by
  cases s with
  | halt v => exact absurd rfl (h v)
  | _ => rfl

/-- A run that returns has reduced its first state to a halt. -/
theorem steps_of_run {r : Evaluation} (h : run limit fuel steps s = .ok r) :
    ∃ n ≤ fuel, r.steps = steps + n ∧ Steps n s (.halt r.value) := by
  induction fuel generalizing steps s with
  | zero =>
    cases s with
    | halt =>
      cases h
      exact ⟨0, Nat.le_refl 0, rfl, .zero _⟩
    | _ => cases h
  | succ fuel ih =>
    by_cases hs : ∃ v, s = .halt v
    · obtain ⟨v, rfl⟩ := hs
      cases h
      exact ⟨0, Nat.zero_le _, rfl, .zero _⟩
    · rw [run_next fun v hv => hs ⟨v, hv⟩] at h
      split at h
      · cases h
      next first =>
        obtain ⟨n, hn, hcount, hsteps⟩ := ih h
        exact ⟨n + 1, Nat.succ_le_succ hn, by omega, .succ first hsteps⟩

/-- A run that fails is out of budget or has come to a state that fails. -/
theorem fault_of_run (h : run limit fuel steps s = .error e) :
    e = .outOfBudget limit ∨ ∃ n < fuel, ∃ t, Steps n s t ∧ t.Fails e := by
  induction fuel generalizing steps s with
  | zero =>
    cases s with
    | halt => cases h
    | _ =>
      cases h
      exact .inl rfl
  | succ fuel ih =>
    by_cases hs : ∃ v, s = .halt v
    · obtain ⟨v, rfl⟩ := hs
      cases h
    · have running : ∀ v, s ≠ .halt v := fun v hv => hs ⟨v, hv⟩
      rw [run_next running] at h
      split at h
      next fault =>
        cases h
        exact .inr ⟨0, Nat.succ_pos _, s, .zero s, running, fault⟩
      next first =>
        refine (ih h).imp_right ?_
        rintro ⟨n, hn, t, hsteps, fails⟩
        exact ⟨n + 1, Nat.succ_lt_succ hn, t, .succ first hsteps, fails⟩

theorem Steps.run_halt (h : Steps n s (.halt v)) :
    run limit fuel steps s
      = if n ≤ fuel then .ok ⟨v, steps + n⟩ else .error (.outOfBudget limit) := by
  generalize ht : State.halt v = t at h
  induction h generalizing fuel steps with
  | zero =>
    subst ht
    rw [if_pos (Nat.zero_le _)]
    cases fuel <;> rfl
  | @succ n _ _ _ _ first _ ih =>
    cases fuel with
    | zero => exact run_zero (not_halt_of_step first)
    | succ fuel =>
      rw [run_next (not_halt_of_step first), first]
      refine (ih ht).trans ?_
      simp only [Nat.succ_le_succ_iff, Nat.add_assoc, Nat.add_comm 1]

variable {before : Digest} {frames : List Frame}

/-- A traced run that fails is out of budget or stops. -/
theorem stops_of_runTraced (h : runTraced limit fuel steps before frames s = .error e) :
    e = .outOfBudget limit ∨ ∃ n < fuel, Stops n s e := by
  induction fuel generalizing steps before frames s with
  | zero =>
    cases s with
    | halt => cases h
    | _ =>
      cases h
      exact .inl rfl
  | succ fuel ih =>
    by_cases hs : ∃ v, s = .halt v
    · obtain ⟨v, rfl⟩ := hs
      exact absurd h (by simp [runTraced_halt])
    · have running : ∀ v, s ≠ .halt v := fun v hv => hs ⟨v, hv⟩
      rw [runTraced_succ running] at h
      split at h
      next fault =>
        cases h
        exact .inr ⟨0, Nat.succ_pos _, .reduction ⟨running, fault⟩⟩
      next first =>
        split at h
        next digest =>
          cases h
          exact .inr ⟨0, Nat.succ_pos _, .digest first digest⟩
        next digest =>
          refine (ih h).imp_right ?_
          rintro ⟨n, hn, stops⟩
          exact ⟨n + 1, Nat.succ_lt_succ hn, .later first digest stops⟩

theorem stops_of_traced (h : traced limit s = .error e) :
    s.digest = .error e ∨ ∃ before, s.digest = .ok before ∧
      (e = .outOfBudget limit ∨ ∃ n < limit.toNat, Stops n s e) := by
  rcases bind_eq_error.1 h with digest | ⟨before, digest, h⟩
  · exact .inl digest
  · exact .inr ⟨before, digest, stops_of_runTraced h⟩

/-- The faults of a traced run are those of a run but for states without a digest. -/
theorem fault_of_traced (h : traced limit s = .error e) :
    e = .outOfBudget limit ∨ (∃ fault, e = .unhashable fault) ∨
      ∃ n t, Steps n s t ∧ t.Fails e := by
  rcases stops_of_traced h with digest | ⟨-, -, he | ⟨n, -, stops⟩⟩
  · exact .inr (.inl (unhashable_of_digest digest))
  · exact .inl he
  · obtain ⟨t, hsteps, fails | ⟨u, family, -, digest⟩⟩ := stops.exists_steps
    · exact .inr (.inr ⟨n, t, hsteps, fails⟩)
    · exact .inr (.inl (unhashable_of_digest digest))

theorem Runs.runTraced {new : List Frame} (h : Runs steps before s new v) :
    Machine.runTraced limit fuel steps before frames s
      = if new.length ≤ fuel then .ok ⟨⟨v, steps + new.length⟩, frames.reverse ++ new⟩
        else .error (.outOfBudget limit) := by
  induction h generalizing fuel frames with
  | halt k before v =>
    rw [runTraced_halt, List.length_nil, if_pos (Nat.zero_le _), List.append_nil]
    rfl
  | @step k _ _ _ _ _ new _ first digest _ ih =>
    cases fuel with
    | zero => exact runTraced_zero (not_halt_of_step first)
    | succ fuel =>
      rw [runTraced_succ (not_halt_of_step first), first]
      simp only [digest, ih, List.length_cons, Nat.succ_le_succ_iff, List.reverse_cons,
        List.append_assoc, List.singleton_append]
      rw [show k + 1 + new.length = k + (new.length + 1) by omega]

theorem Stops.runTraced (h : Stops n s e) :
    Machine.runTraced limit fuel steps before frames s
      = if n < fuel then .error e else .error (.outOfBudget limit) := by
  induction h generalizing fuel steps before frames with
  | reduction fails =>
    cases fuel with
    | zero => exact runTraced_zero fails.running
    | succ fuel =>
      rw [runTraced_succ fails.running, fails.fault]
      exact (if_pos (Nat.succ_pos fuel)).symm
  | digest first digest =>
    cases fuel with
    | zero => exact runTraced_zero (not_halt_of_step first)
    | succ fuel =>
      rw [runTraced_succ (not_halt_of_step first), first]
      simp only [digest]
      exact (if_pos (Nat.succ_pos fuel)).symm
  | later first digest _ ih =>
    cases fuel with
    | zero => exact runTraced_zero (not_halt_of_step first)
    | succ fuel =>
      rw [runTraced_succ (not_halt_of_step first), first]
      simp only [digest, ih, Nat.succ_lt_succ_iff]

end CommitChain.Machine
