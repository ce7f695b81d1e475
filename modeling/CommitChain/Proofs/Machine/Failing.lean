import CommitChain.Proofs.Machine.Rules

/-!
# The failing reductions by their rules

What the machine rejects an expression for and why an operation refuses its values, beside the rules
`Enters` and `Operates` of those that go on.  A reduction that fails is one of these, or it is stuck
where nothing is left of a sequence or the machine has halted (`faulty_of_step`).
-/

namespace CommitChain.Machine

open Value

/-- What an expression is rejected for. -/
inductive Rejects (env : Env) : Value → Fault → Prop
  | unbound {name : String} (free : name ≠ "t") (absent : env.lookup name = none) :
      Rejects env (.sym name) (.unbound name)
  | notAnExpression (e : Value) : Rejects env e (.notAnExpression e)
  | improperForm (e : Value) : Rejects env e (.improperForm e)
  | malformed (name : String) (e : Value) : Rejects env e (.malformed name e)
  | oneArgument (name : String) (e : Value) : Rejects env e (.oneArgument name)
  | letrecNotLambda (name : String) (e : Value) : Rejects env e (.letrecNotLambda name)
  | letrecMalformed (name : String) (e : Value) : Rejects env e (.letrecMalformed name)
  | builtinArity (b : Builtin) (given : Nat) (e : Value) : Rejects env e (.builtinArity b given)

/-- Why the operation refuses some values. -/
inductive Refuses : Option Builtin → List Value → Fault → Prop
  | notNumber {b : Builtin} {vs : List Value} {v : Value} (operand : v ∈ vs) :
      Refuses (some b) vs (.notNumber b v)
  | divisionByZero (b : Builtin) (vs : List Value) : Refuses (some b) vs (.divisionByZero b)
  | notPair {b : Builtin} {vs : List Value} {v : Value} (operand : v ∈ vs) :
      Refuses (some b) vs (.notPair b v)
  | arity {b : Builtin} {vs : List Value} (mismatch : vs.length ≠ b.arity) :
      Refuses (some b) vs .stuck
  | notFunction {fn : Value} (args : List Value) (value : fn.isFunction = false) :
      Refuses none (fn :: args) (.notFunction fn)
  | argumentCount (vs : List Value) (expected given : Nat) :
      Refuses none vs (.argumentCount expected given)
  | noOperator : Refuses none [] .stuck

/-- The states whose reduction fails. -/
inductive Faulty : State → Fault → Prop
  | eval {e : Value} {env : Env} {k : Stack} {f : Fault} (rejects : Rejects env e f) :
      Faulty (.eval e env k) f
  | operate {v : Value} {target : Option Builtin} {done : List Value} {env : Env} {k : Stack}
      {f : Fault} (refuses : Refuses target (done ++ [v]) f) :
      Faulty (.ret v (.operands target [] done env :: k)) f
  | sequence (v : Value) (env : Env) (k : Stack) : Faulty (.ret v (.sequence [] env :: k)) .stuck
  | call {fn : Value} {args : List Value} {ref : Json} {f : Fault}
      (refuses : Refuses none (fn :: args) f) : Faulty (.call fn args ref) f
  | halt (v : Value) : Faulty (.halt v) .stuck

variable {f : Fault} {env : Env} {k : Stack} {b : Builtin} {vs : List Value}

/-! ## Expressions -/

theorem rejects_of_letrecEnv {env' : Env} {pairs : List (String × Value)} (e : Value)
    (h : letrecEnv env' pairs = .error f) : Rejects env e f := by
  induction pairs generalizing env' with
  | nil => cases h
  | cons p rest ih =>
    unfold letrecEnv at h
    split at h
    · split at h
      · exact ih h
      · cases h
        exact .letrecMalformed _ e
    · cases h
      exact .letrecNotLambda _ e

theorem rejects_of_evalForm {form head : Value} {args : List Value}
    (h : evalForm form head args env k = .error f) : Rejects env form f := by
  unfold evalForm at h
  split at h
  case h_1 =>
    split at h
    · cases h
    · cases h
      exact .oneArgument "quote" form
  case h_2 =>
    split at h
    · split at h
      · cases h
      · cases h
        exact .malformed "lambda" form
    · cases h
      exact .malformed "lambda" form
  case h_3 =>
    split at h
    · split at h
      · cases h
      · cases h
      · cases h
        exact .malformed "let" form
    · cases h
      exact .malformed "let" form
  case h_4 =>
    split at h
    · split at h
      · exact rejects_of_letrecEnv form (map_eq_error.1 h)
      · cases h
        exact .malformed "letrec" form
    · cases h
      exact .malformed "letrec" form
  case h_5 =>
    split at h
    · cases h
    · cases h
    · cases h
      exact .malformed "if" form
  case h_6 => split at h <;> cases h
  case h_7 =>
    split at h
    · cases h
    · cases h
      exact .oneArgument "delay" form
  case h_8 =>
    split at h
    next b _ =>
      split at h
      · split at h
        · cases h
        · cases h
          exact .builtinArity b _ form
      · cases h
        exact .builtinArity b 0 form
    next => cases h

theorem rejects_of_evalExpr {e : Value} (h : evalExpr e env k = .error f) : Rejects env e f := by
  unfold evalExpr at h
  split at h
  case h_4 name =>
    split at h
    · cases h
    next free =>
      split at h
      · cases h
      next absent =>
        cases h
        exact .unbound free absent
  case h_5 =>
    split at h
    · exact rejects_of_evalForm h
    · cases h
      exact .improperForm _
  case h_6 =>
    cases h
    exact .notAnExpression _
  all_goals cases h

/-! ## Operations -/

theorem refuses_of_numbers {v w : Value} (h : numbers b v w = .error f) :
    Refuses (some b) [v, w] f := by
  unfold numbers at h
  split at h
  · cases h
  · cases h
    exact .notNumber (List.mem_cons_of_mem _ List.mem_cons_self)
  · cases h
    exact .notNumber List.mem_cons_self

theorem refuses_of_division {v w : Value} {g : Int → Int → Int}
    (h : (do
      let (m, n) ← numbers b v w
      if n = 0 then .error (.divisionByZero b) else .ok (.num (g m n))) =
        (.error f : Except _ Value)) :
    Refuses (some b) [v, w] f := by
  rcases bind_eq_error.1 h with h | ⟨⟨m, n⟩, -, h⟩
  · exact refuses_of_numbers h
  · dsimp only at h
    split at h
    · cases h
      exact .divisionByZero b _
    · cases h

/-- A builtin but `force` refuses an operand or their number. -/
theorem refuses_of_applyBuiltin (hb : b ≠ .force) (h : applyBuiltin b vs = .error f) :
    Refuses (some b) vs f := by
  by_cases arity : vs.length = b.arity
  · cases b with
    | force => exact absurd rfl hb
    | car | cdr =>
      obtain ⟨v, rfl⟩ := List.length_eq_one_iff.1 arity
      cases v with
      | nil => cases h
      | cons => cases h
      | _ =>
        cases h
        exact .notPair List.mem_cons_self
    | atom =>
      obtain ⟨v, rfl⟩ := List.length_eq_one_iff.1 arity
      cases h
    | same | cons =>
      obtain ⟨v, w, rfl⟩ := List.length_eq_two.1 arity
      cases h
    | div | mod =>
      obtain ⟨v, w, rfl⟩ := List.length_eq_two.1 arity
      exact refuses_of_division h
    | _ =>
      obtain ⟨v, w, rfl⟩ := List.length_eq_two.1 arity
      exact refuses_of_numbers (map_eq_error.1 h)
  · unfold applyBuiltin at h
    split at h
    case h_16 =>
      cases h
      exact .arity arity
    all_goals exact absurd rfl arity

theorem refuses_of_applyFunction {fn : Value} {args : List Value}
    (h : applyFunction fn args k = .error f) : Refuses none (fn :: args) f := by
  cases fn with
  | closure | fix =>
    unfold applyFunction at h
    split at h
    · split at h
      · cases h
      · cases h
        exact .argumentCount _ _ _
    next closes => exact absurd rfl (closes _ _ _)
  | _ =>
    cases h
    exact .notFunction args rfl

theorem refuses_of_operate {target : Option Builtin} (h : operate target vs k = .error f) :
    Refuses target vs f := by
  unfold operate at h
  split at h
  case h_1 => exact refuses_of_applyFunction (map_eq_error.1 h)
  case h_2 =>
    cases h
    exact .noOperator
  case h_3 => cases h
  case h_4 => cases h
  case h_5 b _ value =>
    have hbuiltin := map_eq_error.1 h
    by_cases hb : b = .force
    · subst hb
      cases hbuiltin
      refine .arity fun arity => ?_
      obtain ⟨v, rfl⟩ := List.length_eq_one_iff.1 arity
      exact value v rfl rfl
    · exact refuses_of_applyBuiltin hb hbuiltin

theorem not_refuses_unbound {target : Option Builtin} {name : String} :
    ¬Refuses target vs (.unbound name) := by
  intro h
  cases h

/-- An operation is stuck if its values do not fit it. -/
theorem refuses_stuck {target : Option Builtin} (h : Refuses target vs .stuck) :
    vs = [] ∨ ∃ b, target = some b ∧ vs.length ≠ b.arity := by
  cases h with
  | arity mismatch => exact .inr ⟨_, rfl, mismatch⟩
  | noOperator => exact .inl rfl

/-! ## Reductions -/

/-- A reduction that fails does so by one of the rules. -/
theorem faulty_of_step {s : State} (h : s.step = .error f) : Faulty s f := by
  cases s with
  | eval e env stack => exact .eval (rejects_of_evalExpr (map_eq_error.1 h))
  | ret v stack =>
    cases stack with
    | nil => cases h
    | cons p stack =>
      cases p with
      | operands target waiting done env =>
        cases waiting with
        | nil => exact .operate (refuses_of_operate h)
        | cons => cases h
      | branch => cases h
      | bind name waiting => cases waiting <;> cases h
      | sequence waiting env =>
        rcases waiting with _ | ⟨e, _ | ⟨e', rest⟩⟩
        · cases h
          exact .sequence v env stack
        · cases h
        · cases h
  | call fn args ref => exact .call (refuses_of_applyFunction (map_eq_error.1 h))
  | halt v =>
    cases h
    exact .halt v

end CommitChain.Machine
