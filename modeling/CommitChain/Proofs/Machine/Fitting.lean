import CommitChain.Proofs.Machine.Endings
import CommitChain.Proofs.Machine.Failing

/-!
# The machine does not get stuck

What remains to be done *fits* its operation: a builtin gets as many operands as it takes, an
application has its operator in front, and a sequence has an expression left.  A run starts with
nothing to do, and each reduction of a state that fits gives one (`State.Fits.step`), since a form
is counted when it is entered and operands only move from those that wait to those that are done.
A state that fits has a next one unless the program is at fault (`State.Fits.step_ne_stuck`).
-/

namespace CommitChain.Machine

open Value

/-! ## What fits -/

/-- A state that a run starts from. -/
inductive State.Initial : State → Prop
  | evaluate (expr : Value) (env : Env) : Initial (.eval expr env [])
  | apply (fn : Value) (args : List Value) (ref : Json) : Initial (.call fn args ref)

/-- A run from `s` comes by `t`. -/
inductive Reaches (s : State) : State → Prop
  | refl : Reaches s s
  | step {t u : State} {family : Family} (reached : Reaches s t)
      (first : t.step = .ok (u, family)) : Reaches s u

def State.stack : State → Stack
  | eval _ _ stack => stack
  | ret _ stack => stack
  | call .. => []
  | halt _ => []

/-- The state that an application goes on to: its operator is evaluated, and all else is waiting. -/
def operatorState (f : Value) (es : List Value) (env : Env) (below : Stack) : State :=
  .eval f env (.operands none es [] env :: below)

/-- The run to `s` has come by an application whose operator it went on to evaluate.  It does so
still, or what came of the operator is in front of the arguments that are done. -/
def OperatorFirst (start s : State) (below : Stack) (waiting done : List Value) (env : Env) :
    Prop :=
  ∃ f es, Reaches start (.eval (.cons f (ofList es)) env below) ∧
    (State.eval (.cons f (ofList es)) env below).step = .ok (operatorState f es env below, .core) ∧
    (done = [] ∧ waiting = es ∧ Reaches (operatorState f es env below) s ∨
      ∃ fn vs, done = fn :: vs ∧ vs.length + 1 + waiting.length = es.length ∧
        Reaches (operatorState f es env below) (.ret fn (.operands none es [] env :: below)))

/-- What remains to be done above `below`, while the run is at `s`, fits its operation. -/
def Pending.Fits (start s : State) (below : Stack) : Pending → Prop
  | operands (some b) waiting done _ => done.length + 1 + waiting.length = b.arity
  | operands none waiting done env => OperatorFirst start s below waiting done env
  | sequence waiting _ => waiting ≠ []
  | branch .. => True
  | bind .. => True

/-- All that remains to be done fits. -/
def FitAll (start s : State) (stack : Stack) : Prop :=
  ∀ p below, p :: below <:+ stack → p.Fits start s below

def State.Fits (s start : State) : Prop :=
  FitAll start s s.stack

variable {start s t : State} {k : Stack}

theorem fitAll_nil : FitAll start s [] :=
  fun _ _ h => absurd (List.suffix_nil.1 h) (List.cons_ne_nil _ _)

theorem fitAll_cons {p : Pending} :
    FitAll start s (p :: k) ↔ p.Fits start s k ∧ FitAll start s k := by
  constructor
  · intro h
    refine ⟨h p k (List.suffix_refl _), fun q below hq => ?_⟩
    exact h q below (hq.trans (List.suffix_cons p k))
  · rintro ⟨hp, hk⟩ q below hq
    rcases List.suffix_cons_iff.1 hq with heq | hq
    · cases heq
      exact hp
    · exact hk q below hq

/-- What fits goes on to fit while the run goes on. -/
theorem FitAll.step (h : FitAll start s k) {family : Family} (first : s.step = .ok (t, family)) :
    FitAll start t k := by
  intro p below hp
  have hfits := h p below hp
  cases p with
  | operands target waiting done env =>
    cases target with
    | some b => exact hfits
    | none =>
      obtain ⟨f, es, hform, hnext, hphase⟩ := hfits
      refine ⟨f, es, hform, hnext, hphase.imp_left ?_⟩
      exact fun ⟨hdone, hwaiting, hreached⟩ => ⟨hdone, hwaiting, hreached.step first⟩
  | branch => trivial
  | bind => trivial
  | sequence => exact hfits

/-! ## Reductions -/

theorem Enters.fits {env : Env} {e : Value} (h : Enters env k e t)
    (reached : Reaches start (.eval e env k)) (hk : FitAll start t k) : t.Fits start := by
  have push : ∀ {p : Pending}, p.Fits start t k → FitAll start t (p :: k) :=
    fun hp => fitAll_cons.2 ⟨hp, hk⟩
  cases h with
  | letIn pairs body =>
    cases pairs with
    | nil => exact hk
    | cons => exact push trivial
  | branch => exact push trivial
  | begin e es =>
    cases es with
    | nil => exact hk
    | cons => exact push (List.cons_ne_nil _ _)
  | @builtin b e es arity =>
    refine push ?_
    show 0 + 1 + es.length = b.arity
    rw [← arity, List.length_cons]
    omega
  | @apply f es call =>
    refine push ⟨f, es, reached, ?_, .inl ⟨rfl, rfl, .refl⟩⟩
    exact map_eq_ok.2 ⟨_, evalExpr_eq_ok.2 (.apply es call), rfl⟩
  | _ => exact hk

theorem Operates.fits {target : Option Builtin} {vs : List Value} (h : Operates k target vs t)
    (hk : FitAll start t k) : t.Fits start := by
  cases h <;> exact hk

/-- An operand that is done leaves what waits for the others fitting. -/
theorem fits_operands {target : Option Builtin} {e v : Value} {waiting done : List Value}
    {env : Env}
    (h : (Pending.operands target (e :: waiting) done env).Fits start
      (.ret v (.operands target (e :: waiting) done env :: k)) k) :
    (Pending.operands target waiting (done ++ [v]) env).Fits start t k := by
  cases target with
  | some b =>
    show (done ++ [v]).length + 1 + waiting.length = b.arity
    have hcount : done.length + 1 + (waiting.length + 1) = b.arity := h
    rw [List.length_append, List.length_singleton]
    omega
  | none =>
    obtain ⟨f, es, hform, hnext, hphase⟩ := h
    refine ⟨f, es, hform, hnext, .inr ?_⟩
    rcases hphase with ⟨rfl, rfl, hreached⟩ | ⟨fn, vs, rfl, hcount, hreached⟩
    · exact ⟨v, [], rfl, by rw [List.length_cons, List.length_nil]; omega, hreached⟩
    · refine ⟨fn, vs ++ [v], rfl, ?_, hreached⟩
      rw [List.length_cons] at hcount
      rw [List.length_append, List.length_singleton]
      omega

theorem fits_of_resume {v : Value} {p : Pending} {family : Family}
    (h : resume v (p :: k) = .ok (t, family)) (hp : p.Fits start (.ret v (p :: k)) k)
    (hk : FitAll start t k) : t.Fits start := by
  cases p with
  | operands target waiting done env =>
    cases waiting with
    | nil => exact (operate_eq_ok.1 ⟨family, h⟩).fits hk
    | cons e waiting =>
      cases h
      exact fitAll_cons.2 ⟨fits_operands hp, hk⟩
  | branch =>
    cases h
    exact hk
  | bind name waiting body env =>
    rw [resume_bind] at h
    cases h
    cases waiting with
    | nil => exact hk
    | cons => exact fitAll_cons.2 ⟨trivial, hk⟩
  | sequence waiting env =>
    cases waiting with
    | nil => cases h
    | cons e waiting =>
      rw [resume_sequence] at h
      cases h
      cases waiting with
      | nil => exact hk
      | cons => exact fitAll_cons.2 ⟨List.cons_ne_nil _ _, hk⟩

/-- A reduction of a state that fits gives one that fits. -/
theorem State.Fits.step (h : s.Fits start) (reached : Reaches start s) {family : Family}
    (first : s.step = .ok (t, family)) : t.Fits start := by
  have hall : FitAll start t s.stack := FitAll.step h first
  cases s with
  | eval e env stack =>
    obtain ⟨u, hu, hut⟩ := map_eq_ok.1 first
    cases hut
    exact (evalExpr_eq_ok.1 hu).fits reached hall
  | ret v stack =>
    cases stack with
    | nil =>
      cases first
      exact fitAll_nil
    | cons p k => exact fits_of_resume first (fitAll_cons.1 h).1 (fitAll_cons.1 hall).2
  | call fn args ref =>
    have hoperate : operate none (fn :: args) [] = .ok (t, family) := first
    exact (operate_eq_ok.1 ⟨family, hoperate⟩).fits fitAll_nil
  | halt v => exact absurd first step_halt_ne_ok

theorem State.Initial.fits (h : start.Initial) : start.Fits start := by
  cases h <;> exact fitAll_nil

theorem Reaches.fits (h : Reaches start s) (hstart : start.Initial) : s.Fits start := by
  induction h with
  | refl => exact hstart.fits
  | step reached first ih => exact ih.step reached first

/-! ## Getting stuck -/

/-- A state that fits and has not halted has a next one, or the program is at fault. -/
theorem State.Fits.step_ne_stuck (h : s.Fits start) (running : ∀ v, s ≠ .halt v) :
    s.step ≠ .error .stuck := by
  intro hstuck
  cases faulty_of_step hstuck with
  | eval rejects => cases rejects
  | @operate v target done env k f refuses =>
    rcases refuses_stuck refuses with hnil | ⟨b, rfl, mismatch⟩
    · exact absurd hnil (by simp)
    · -- with the value that has come back there are as many operands as the builtin takes
      have hcount : done.length + 1 + 0 = b.arity := (fitAll_cons.1 h).1
      rw [List.length_append, List.length_singleton] at mismatch
      exact mismatch hcount
  | sequence v env k => exact (fitAll_cons.1 h).1 rfl
  | call refuses =>
    rcases refuses_stuck refuses with hnil | ⟨b, htarget, -⟩
    · cases hnil
    · cases htarget
  | halt v => exact running v rfl

/-! ## Runs -/

theorem Steps.reaches {n : Nat} (h : Steps n s t) (reached : Reaches start s) :
    Reaches start t := by
  induction h with
  | zero => exact reached
  | succ first _ ih => exact ih (reached.step first)

/-- No state that a run comes by is stuck. -/
theorem State.Initial.not_fails_stuck (h : start.Initial) {n : Nat} (steps : Steps n start t) :
    ¬t.Fails .stuck :=
  fun fails => ((steps.reaches .refl).fits h).step_ne_stuck fails.running fails.fault

theorem State.Initial.run_ne_stuck (h : start.Initial) {limit : Int} {fuel steps : Nat} :
    run limit fuel steps start ≠ .error .stuck := by
  intro he
  rcases fault_of_run he with he | ⟨n, -, t, hsteps, fails⟩
  · cases he
  · exact h.not_fails_stuck hsteps fails

theorem State.Initial.traced_ne_stuck (h : start.Initial) {limit : Int} :
    traced limit start ≠ .error .stuck := by
  intro he
  rcases fault_of_traced he with he | ⟨_, he⟩ | ⟨n, t, hsteps, fails⟩
  · cases he
  · cases he
  · exact h.not_fails_stuck hsteps fails

/-- In each state that a run comes by all that remains to be done fits its operation, and unless it
has halted it has a next one or the program is at fault: no evaluation and no call ends by getting
stuck. -/
theorem reached_fits_and_goes_on :
    (∀ start s : State, start.Initial → Reaches start s →
      s.Fits start ∧ ((∀ v, s ≠ .halt v) → s.step ≠ .error .stuck)) ∧
    (∀ (limit : Int) (expr : Value) (env : Env),
      evaluate limit expr env ≠ .error .stuck ∧ evaluateTraced limit expr env ≠ .error .stuck) ∧
    ∀ (limit : Int) (fn : Value) (args : List Value) (ref : Json),
      apply limit fn args ref ≠ .error .stuck := by
  refine ⟨fun start s hstart reached => ?_, fun limit expr env => ?_, fun limit fn args ref => ?_⟩
  · have hfits : s.Fits start := reached.fits hstart
    exact ⟨hfits, hfits.step_ne_stuck⟩
  · exact ⟨(State.Initial.evaluate expr env).run_ne_stuck,
      (State.Initial.evaluate expr env).traced_ne_stuck⟩
  · exact (State.Initial.apply fn args ref).traced_ne_stuck

/-- The expression `(+ 1 ((lambda (x) x) (begin 2 3)))`. -/
def nestedExpr : Value :=
  form "+" [num 1, ofList [form "lambda" [nameList ["x"], sym "x"], form "begin" [num 2, num 3]]]

/-- Where its inmost part is entered: a sequence stands in an application, which is an operand of
the builtin. -/
def nestedState : State :=
  .eval (num 2) []
    [.sequence [num 3] [],
      .operands none [] [.closure ["x"] (sym "x") []] [],
      .operands (some .add) [] [num 1] []]

theorem nested_fits_and_goes_on :
    Reaches (.eval nestedExpr [] []) nestedState ∧
      nestedState.Fits (.eval nestedExpr [] []) ∧ nestedState.step ≠ .error .stuck ∧
      evaluate 20 nestedExpr [] ≠ .error .stuck := by
  have hreached : Reaches (.eval nestedExpr [] []) nestedState :=
    ((((((Reaches.refl.step rfl).step rfl).step rfl).step rfl).step rfl).step rfl).step rfl
  obtain ⟨hfits, hnext⟩ := reached_fits_and_goes_on.1 _ _ (.evaluate nestedExpr []) hreached
  exact ⟨hreached, hfits, hnext (fun _ h => State.noConfusion h),
    (reached_fits_and_goes_on.2.1 20 nestedExpr []).1⟩

end CommitChain.Machine
