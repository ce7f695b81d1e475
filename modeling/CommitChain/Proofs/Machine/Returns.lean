import CommitChain.Proofs.Machine.Endings
import CommitChain.Proofs.Machine.Rules

/-!
# Returns to a stack

`Returns k n s v` says that `n` reductions take the state `s` to the value `v` on the stack `k`, and
that they come back to `k` no sooner.  While they run the stack stays above `k` (`State.Above`), so
the evaluation of a part can be cut out of that of the whole (`Returns.cut`) and put back into it
(`Returns.through`).
-/

namespace CommitChain.Machine

open Value

/-! ## Stacks that stand on another -/

/-- A state that has still to do all of what stands in `k`. -/
def State.Above (k : Stack) : State → Prop
  | eval _ _ stack => k <:+ stack
  | ret _ stack => k <:+ stack
  | _ => False

section

variable {k stack : Stack} {s t : State}

theorem State.Above.trans {l : Stack} (h : s.Above l) (hk : k <:+ l) : s.Above k := by
  cases s with
  | eval => exact hk.trans h
  | ret => exact hk.trans h
  | call => exact h
  | halt => exact h

theorem above_bindState (env : Env) (body : Value) (pairs : List (String × Value)) :
    (bindState env body k pairs).Above k := by
  cases pairs with
  | nil => exact List.suffix_refl k
  | cons => exact List.suffix_cons _ k

theorem above_sequenceState (env : Env) (e : Value) (es : List Value) :
    (sequenceState env k e es).Above k := by
  cases es with
  | nil => exact List.suffix_refl k
  | cons => exact List.suffix_cons _ k

theorem Enters.above {env : Env} {e : Value} (h : Enters env k e s) : s.Above k := by
  cases h with
  | letIn pairs body => exact above_bindState env body pairs
  | begin e es => exact above_sequenceState env e es
  | branch => exact List.suffix_cons _ k
  | builtin => exact List.suffix_cons _ k
  | apply => exact List.suffix_cons _ k
  | _ => exact List.suffix_refl k

theorem Operates.above {target : Option Builtin} {vs : List Value} (h : Operates k target vs s) :
    s.Above k := by
  cases h <;> exact List.suffix_refl k

theorem above_of_resume {v : Value} {p : Pending} {family : Family}
    (h : resume v (p :: k) = .ok (s, family)) : s.Above k := by
  cases p with
  | operands target waiting done env =>
    cases waiting with
    | nil => exact (operate_eq_ok.1 ⟨family, h⟩).above
    | cons e waiting =>
      cases h
      exact List.suffix_cons _ k
  | branch =>
    cases h
    exact List.suffix_refl k
  | bind name waiting body env =>
    rw [resume_bind] at h
    cases h
    exact above_bindState _ body waiting
  | sequence waiting env =>
    cases waiting with
    | nil => cases h
    | cons e waiting =>
      rw [resume_sequence] at h
      cases h
      exact above_sequenceState env e waiting

/-- A state leaves the stack below it alone until it returns to it. -/
theorem State.Above.step (h : s.Above k) (waits : ∀ v, s ≠ .ret v k) {family : Family}
    (first : s.step = .ok (t, family)) : t.Above k := by
  cases s with
  | eval e env stack =>
    obtain ⟨u, hu, hut⟩ := map_eq_ok.1 first
    cases hut
    exact (evalExpr_eq_ok.1 hu).above.trans h
  | ret v stack =>
    cases stack with
    | nil => exact absurd (List.suffix_nil.1 h ▸ rfl) (waits v)
    | cons p stack =>
      rcases List.suffix_cons_iff.1 h with rfl | hstack
      · exact absurd rfl (waits v)
      · exact (above_of_resume first).trans hstack
  | call => exact h.elim
  | halt => exact h.elim

theorem State.Above.ne_ret {p : Pending} (h : s.Above (p :: k)) (v : Value) : s ≠ .ret v k := by
  rintro rfl
  have hlength := h.length_le
  rw [List.length_cons] at hlength
  omega

end

/-! ## Returns -/

/-- After `n` reductions the state comes to the value on the stack, and no sooner to any value. -/
inductive Returns (k : Stack) : Nat → State → Value → Prop
  | done (v : Value) : Returns k 0 (.ret v k) v
  | step {n : Nat} {s t : State} {family : Family} {v : Value} (waits : ∀ w, s ≠ .ret w k)
      (first : s.step = .ok (t, family)) (rest : Returns k n t v) : Returns k (n + 1) s v

section

variable {k : Stack} {m n : Nat} {s : State} {v w : Value}

/-- A return in terms of rows of reductions. -/
theorem returns_iff :
    Returns k n s v ↔ Steps n s (.ret v k) ∧ ∀ m < n, ∀ w, ¬Steps m s (.ret w k) := by
  constructor
  · intro h
    induction h with
    | done v => exact ⟨.zero _, fun m hm => absurd hm (Nat.not_lt_zero m)⟩
    | @step n s t family v waits first rest ih =>
      refine ⟨.succ first ih.1, ?_⟩
      intro m hm w hsteps
      cases hsteps with
      | zero => exact waits w rfl
      | @succ m _ u _ family' first' rest' =>
        obtain ⟨rfl, _⟩ := Prod.ext_iff.1 (Except.ok.inj (first.symm.trans first'))
        exact ih.2 m (by omega) w rest'
  · rintro ⟨hsteps, sooner⟩
    induction n generalizing s with
    | zero =>
      cases hsteps
      exact .done v
    | succ n ih =>
      cases hsteps with
      | succ first rest =>
        refine .step ?_ first (ih rest ?_)
        · rintro w rfl
          exact sooner 0 (by omega) w (.zero _)
        · intro m hm w hm'
          exact sooner (m + 1) (by omega) w (.succ first hm')

theorem Returns.unique (h : Returns k n s v) (g : Returns k m s w) : n = m ∧ v = w := by
  induction h generalizing m with
  | done v =>
    cases g with
    | done => exact ⟨rfl, rfl⟩
    | step waits => exact absurd rfl (waits v)
  | step waits first rest ih =>
    cases g with
    | done => exact absurd rfl (waits w)
    | step _ first' rest' =>
      obtain ⟨rfl, _⟩ := Prod.ext_iff.1 (Except.ok.inj (first.symm.trans first'))
      obtain ⟨rfl, rfl⟩ := ih rest'
      exact ⟨rfl, rfl⟩

/-- A part that returns to what waits for it, and what waits from there on. -/
theorem Returns.through {p : Pending} (h : Returns (p :: k) m s w) (hs : s.Above (p :: k))
    (g : Returns k n (.ret w (p :: k)) v) : Returns k (m + n) s v := by
  induction h with
  | done => exact (Nat.zero_add n).symm ▸ g
  | @step m s t family w waits first rest ih =>
    rw [Nat.succ_add]
    exact .step hs.ne_ret first (ih (hs.step waits first) g)

/-- Whoever comes back below what waits for a part has come back to that first. -/
theorem Returns.cut {p : Pending} (h : Returns k n s v) (hs : s.Above (p :: k)) :
    ∃ m l w, n = m + l ∧ 0 < l ∧ Returns (p :: k) m s w ∧ Returns k l (.ret w (p :: k)) v := by
  induction h with
  | done v => exact absurd rfl (hs.ne_ret v)
  | @step n s t family v waits first rest ih =>
    by_cases hret : ∃ w, s = .ret w (p :: k)
    · obtain ⟨w, rfl⟩ := hret
      exact ⟨0, n + 1, w, by omega, by omega, .done w, .step waits first rest⟩
    · have waits' : ∀ w, s ≠ .ret w (p :: k) := fun w hw => hret ⟨w, hw⟩
      obtain ⟨m, l, w, rfl, hl, hpart, hrest⟩ := ih (hs.step waits' first)
      exact ⟨m + 1, l, w, by omega, hl, .step waits' first hpart, hrest⟩

end

/-! ## Runs -/

/-- A run halts one reduction after it has returned to the empty stack. -/
theorem returns_iff_steps {n : Nat} {s : State} {v : Value} (hs : s.Above []) :
    Returns [] n s v ↔ Steps (n + 1) s (.halt v) := by
  constructor
  · intro h
    induction h with
    | done v => exact .succ rfl (.zero _)
    | step waits first _ ih => exact .succ first (ih (hs.step waits first))
  · intro h
    induction n generalizing s with
    | zero =>
      cases h with
      | @succ _ _ t _ family first rest =>
        cases rest
        by_cases hret : ∃ w, s = .ret w []
        · obtain ⟨w, rfl⟩ := hret
          cases first
          exact .done v
        · exact (hs.step (fun w hw => hret ⟨w, hw⟩) first).elim
    | succ n ih =>
      cases h with
      | @succ _ _ t _ family first rest =>
        have waits : ∀ w, s ≠ .ret w [] := by
          rintro w rfl
          cases first
          cases rest with
          | succ first' => exact absurd first' step_halt_ne_ok
        exact .step waits first (ih (hs.step waits first) rest)

theorem evaluate_eq_ok_iff {limit : Int} {e : Value} {env : Env} {r : Evaluation} :
    evaluate limit e env = .ok r ↔
      ∃ n, Returns [] n (.eval e env []) r.value ∧ n + 1 ≤ limit.toNat ∧ r.steps = n + 1 := by
  have hs : (State.eval e env []).Above [] := List.suffix_refl []
  constructor
  · intro h
    obtain ⟨m, hm, hcount, hsteps⟩ := steps_of_run h
    cases m with
    | zero => cases hsteps
    | succ n => exact ⟨n, (returns_iff_steps hs).2 hsteps, hm, by omega⟩
  · rintro ⟨n, hreturns, hn, hcount⟩
    obtain ⟨v, steps⟩ := r
    obtain rfl : steps = n + 1 := hcount
    refine ((returns_iff_steps hs).1 hreturns).run_halt.trans ?_
    rw [if_pos hn, Nat.zero_add]

end CommitChain.Machine
