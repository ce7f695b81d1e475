import CommitChain.Proofs.Language.Semantics
import CommitChain.Proofs.Machine.Reductions

/-!
# The reductions by their rules

What the machine does with an expression (`evalExpr_eq_ok`) and with operands that are all there
(`operate_eq_ok`), by rules that have the shape of those of the language: `Enters` has a rule for
each way to read an expression, `Operates` one for each operation.
-/

namespace CommitChain.Machine

open Value

/-! ## Operations -/

theorem numbers_eq_ok {b : Builtin} {v w : Value} {m n : Int} :
    numbers b v w = .ok (m, n) ↔ v = .num m ∧ w = .num n := by
  constructor
  · intro h
    cases v with
    | num =>
      cases w with
      | num =>
        cases h
        exact ⟨rfl, rfl⟩
      | _ => cases h
    | _ => cases h
  · rintro ⟨rfl, rfl⟩
    rfl

/-- A quotient is rounded down if its remainder is on the divisor's side of zero. -/
theorem fdiv_fmod_iff {m n q r : Int} :
    m = q * n + r ∧ (0 ≤ r ∧ r < n ∨ n < r ∧ r ≤ 0) ↔ n ≠ 0 ∧ m.fdiv n = q ∧ m.fmod n = r := by
  have hcomm : m = q * n + r ↔ r + n * q = m := by
    rw [Int.mul_comm n q, Int.add_comm r]
    exact eq_comm
  rcases Int.lt_trichotomy n 0 with hn | rfl | hn
  · rw [Int.fdiv_fmod_unique' hn, hcomm]
    omega
  · omega
  · rw [Int.fdiv_fmod_unique hn, hcomm]
    omega

theorem numeric_eq_ok {b : Builtin} {v w u : Value} {f : Int × Int → Value} :
    (numbers b v w).map f = .ok u ↔ ∃ m n, v = .num m ∧ w = .num n ∧ f (m, n) = u := by
  rw [map_eq_ok]
  constructor
  · rintro ⟨⟨m, n⟩, hn, rfl⟩
    obtain ⟨rfl, rfl⟩ := numbers_eq_ok.1 hn
    exact ⟨m, n, rfl, rfl, rfl⟩
  · rintro ⟨m, n, rfl, rfl, rfl⟩
    exact ⟨(m, n), rfl, rfl⟩

theorem divided_eq_ok {b : Builtin} {v w u : Value} {f : Int → Int → Int} :
    (do
      let (m, n) ← numbers b v w
      if n = 0 then .error (.divisionByZero b) else .ok (.num (f m n))) = Except.ok u ↔
    ∃ m n, v = .num m ∧ w = .num n ∧ n ≠ 0 ∧ .num (f m n) = u := by
  rw [bind_eq_ok]
  constructor
  · rintro ⟨⟨m, n⟩, hn, h⟩
    obtain ⟨rfl, rfl⟩ := numbers_eq_ok.1 hn
    by_cases hz : n = 0
    · exact absurd h (by simp [hz])
    · refine ⟨m, n, rfl, rfl, hz, ?_⟩
      simpa [hz] using h
  · rintro ⟨m, n, rfl, rfl, hz, rfl⟩
    exact ⟨(m, n), rfl, if_neg hz⟩

theorem applyBuiltin_eq_ok {b : Builtin} {vs : List Value} {v : Value} :
    applyBuiltin b vs = .ok v ↔ b.Gives vs v := by
  constructor
  · intro h
    unfold applyBuiltin at h
    split at h
    case h_1 =>
      obtain ⟨m, n, rfl, rfl, rfl⟩ := numeric_eq_ok.1 h
      exact .add m n
    case h_2 =>
      obtain ⟨m, n, rfl, rfl, rfl⟩ := numeric_eq_ok.1 h
      exact .sub m n
    case h_3 =>
      obtain ⟨m, n, rfl, rfl, rfl⟩ := numeric_eq_ok.1 h
      exact .mul m n
    case h_4 =>
      obtain ⟨m, n, rfl, rfl, hz, rfl⟩ := divided_eq_ok.1 h
      obtain ⟨whole, rest⟩ := fdiv_fmod_iff.2 ⟨hz, rfl, rfl⟩
      exact .div whole rest
    case h_5 =>
      obtain ⟨m, n, rfl, rfl, hz, rfl⟩ := divided_eq_ok.1 h
      obtain ⟨whole, rest⟩ := fdiv_fmod_iff.2 ⟨hz, rfl, rfl⟩
      exact .mod whole rest
    case h_6 =>
      obtain ⟨m, n, rfl, rfl, rfl⟩ := numeric_eq_ok.1 h
      exact .equal m n
    case h_7 =>
      obtain ⟨m, n, rfl, rfl, rfl⟩ := numeric_eq_ok.1 h
      exact .less m n
    case h_8 =>
      obtain ⟨m, n, rfl, rfl, rfl⟩ := numeric_eq_ok.1 h
      exact .greater m n
    case h_9 =>
      obtain ⟨m, n, rfl, rfl, rfl⟩ := numeric_eq_ok.1 h
      exact .lessEqual m n
    case h_10 =>
      obtain ⟨m, n, rfl, rfl, rfl⟩ := numeric_eq_ok.1 h
      exact .greaterEqual m n
    case h_11 =>
      cases h
      exact .same _ _
    case h_12 =>
      cases h
      exact .cons _ _
    case h_13 =>
      split at h
      · cases h
        exact .carNil
      · cases h
        exact .car _ _
      · cases h
    case h_14 =>
      split at h
      · cases h
        exact .cdrNil
      · cases h
        exact .cdr _ _
      · cases h
    case h_15 =>
      cases h
      exact .atom _
    case h_16 => cases h
  · intro h
    cases h with
    | div whole rest =>
      obtain ⟨hz, hq, _⟩ := fdiv_fmod_iff.1 ⟨whole, rest⟩
      exact divided_eq_ok.2 ⟨_, _, rfl, rfl, hz, congrArg Value.num hq⟩
    | mod whole rest =>
      obtain ⟨hz, _, hr⟩ := fdiv_fmod_iff.1 ⟨whole, rest⟩
      exact divided_eq_ok.2 ⟨_, _, rfl, rfl, hz, congrArg Value.num hr⟩
    | _ => rfl

theorem not_gives_force {vs : List Value} {v : Value} : ¬Builtin.force.Gives vs v := by
  intro h
  cases h

theorem length_of_gives {b : Builtin} {vs : List Value} {v : Value} (h : b.Gives vs v) :
    vs.length = b.arity := by
  cases h <;> rfl

/-! ## Functions of a `letrec` -/

theorem letrecEnv_cons {env : Env} {name : String} {expr head params body : Value}
    {names : List String} {rest : List (String × Value)} (hhead : expr.headName? = some "lambda")
    (hlist : expr.toList? = some [head, params, body]) (hnames : params.paramNames? = some names) :
    letrecEnv env ((name, expr) :: rest)
      = letrecEnv (env.bind name (.fix name names body env)) rest := by
  simp only [letrecEnv, hhead, hlist, hnames]

theorem letrecEnv_eq_ok {env scope : Env} {pairs : List (String × Value)} :
    letrecEnv env pairs = .ok scope ↔ BindsFunctions env pairs scope := by
  constructor
  · intro h
    induction pairs generalizing env with
    | nil =>
      cases h
      exact .nil _
    | cons p rest ih =>
      obtain ⟨name, expr⟩ := p
      rw [letrecEnv] at h
      split at h
      next params body hhead hlist =>
        split at h
        next names hnames =>
          obtain ⟨rfl, distinct⟩ := paramNames?_eq_some.1 hnames
          obtain ⟨tail, rfl⟩ := headName?_eq_some.1 hhead
          cases toList?_eq_some.1 hlist
          exact .cons distinct (ih h)
        · cases h
      · cases h
  · intro h
    induction h with
    | nil => rfl
    | @cons _ _ _ params body _ distinct _ ih =>
      have hlist := toList?_ofList [.sym "lambda", nameList params, body]
      exact (letrecEnv_cons rfl hlist (paramNames?_eq_some.2 ⟨rfl, distinct⟩)).trans ih

/-! ## Expressions -/

/-- Where a row of bindings around a body begins. -/
def bindState (env : Env) (body : Value) (stack : Stack) : List (String × Value) → State
  | [] => .eval body env stack
  | (name, e) :: rest => .eval e env (.bind name rest body env :: stack)

/-- Where a row of expressions of which the last one counts begins. -/
def sequenceState (env : Env) (stack : Stack) (e : Value) : List Value → State
  | [] => .eval e env stack
  | next :: rest => .eval e env (.sequence (next :: rest) env :: stack)

/-- The state that an expression leads to. -/
inductive Enters (env : Env) (stack : Stack) : Value → State → Prop
  | num (n : Int) : Enters env stack (.num n) (.ret (.num n) stack)
  | str (s : String) : Enters env stack (.str s) (.ret (.str s) stack)
  | nil : Enters env stack .nil (.ret .nil stack)
  | t : Enters env stack .t (.ret .t stack)
  | symbol {name : String} {v : Value} (free : name ≠ "t") (bound : env.lookup name = some v) :
      Enters env stack (.sym name) (.ret v.close stack)
  | quote (v : Value) : Enters env stack (form "quote" [v]) (.ret v stack)
  | lambda {params : List String} (body : Value) (distinct : params.Nodup) :
      Enters env stack (form "lambda" [nameList params, body])
        (.ret (.closure params body env) stack)
  | letIn (pairs : List (String × Value)) (body : Value) :
      Enters env stack (form "let" [bindingList pairs, body]) (bindState env body stack pairs)
  | letrecIn {scope : Env} {pairs : List (String × Value)} (body : Value)
      (functions : BindsFunctions env pairs scope) :
      Enters env stack (form "letrec" [bindingList pairs, body]) (.eval body scope stack)
  | branch (test yes : Value) (no : Option Value) :
      Enters env stack (form "if" (test :: yes :: no.toList))
        (.eval test env (.branch yes (no.getD .nil) env :: stack))
  | beginNone : Enters env stack (form "begin" []) (.ret .nil stack)
  | begin (e : Value) (es : List Value) :
      Enters env stack (form "begin" (e :: es)) (sequenceState env stack e es)
  | delay (e : Value) : Enters env stack (form "delay" [e]) (.ret (.thunk e env) stack)
  | builtin {b : Builtin} {e : Value} {es : List Value} (arity : (e :: es).length = b.arity) :
      Enters env stack (form b.name (e :: es))
        (.eval e env (.operands (some b) es [] env :: stack))
  | apply {f : Value} (es : List Value) (call : ∀ name, f = .sym name → isKeyword name = false) :
      Enters env stack (.cons f (ofList es)) (.eval f env (.operands none es [] env :: stack))

section

variable {env : Env} {stack : Stack} {s : State}

theorem ofName?_eq_some {name : String} {b : Builtin} :
    Builtin.ofName? name = some b ↔ name = b.name := by
  constructor
  · intro h
    have hfound := List.find?_some h
    exact (of_decide_eq_true hfound).symm
  · rintro rfl
    exact b.ofName?_name

theorem isKeyword_eq_false {name : String} :
    isKeyword name = false ↔ name ∉ specialForms ∧ Builtin.ofName? name = none := by
  simp [isKeyword]

theorem name_not_mem_specialForms (b : Builtin) : b.name ∉ specialForms := by
  cases b <;> decide

theorem evalExpr_cons (f : Value) (es : List Value) :
    evalExpr (.cons f (ofList es)) env stack
      = evalForm (.cons f (ofList es)) f es env stack := by
  rw [evalExpr, toList?_ofList]

theorem enters_of_evalForm {f : Value} {es : List Value}
    (h : evalForm (.cons f (ofList es)) f es env stack = .ok s) :
    Enters env stack (.cons f (ofList es)) s := by
  unfold evalForm at h
  split at h
  case h_1 hname =>
    cases eq_sym_of_headName? hname
    split at h
    · cases h
      exact .quote _
    · cases h
  case h_2 hname =>
    cases eq_sym_of_headName? hname
    split at h
    next params body =>
      split at h
      next names hnames =>
        cases h
        obtain ⟨rfl, distinct⟩ := paramNames?_eq_some.1 hnames
        exact .lambda body distinct
      · cases h
    · cases h
  case h_3 hname =>
    cases eq_sym_of_headName? hname
    split at h
    next bindings body =>
      split at h
      next hpairs =>
        cases h
        cases bindingPairs?_eq_some.1 hpairs
        exact .letIn [] body
      next name e rest hpairs =>
        cases h
        cases bindingPairs?_eq_some.1 hpairs
        exact .letIn ((name, e) :: rest) body
      · cases h
    · cases h
  case h_4 hname =>
    cases eq_sym_of_headName? hname
    split at h
    next bindings body =>
      split at h
      next pairs hpairs =>
        cases bindingPairs?_eq_some.1 hpairs
        obtain ⟨scope, hscope, rfl⟩ := map_eq_ok.1 h
        exact .letrecIn body (letrecEnv_eq_ok.1 hscope)
      · cases h
    · cases h
  case h_5 hname =>
    cases eq_sym_of_headName? hname
    split at h
    next test yes =>
      cases h
      exact .branch test yes none
    next test yes no =>
      cases h
      exact .branch test yes (some no)
    · cases h
  case h_6 hname =>
    cases eq_sym_of_headName? hname
    split at h
    · cases h
      exact .beginNone
    next e =>
      cases h
      exact .begin e []
    next e rest hne =>
      cases h
      cases rest with
      | nil => exact absurd rfl hne
      | cons next rest => exact .begin e (next :: rest)
  case h_7 hname =>
    cases eq_sym_of_headName? hname
    split at h
    next e =>
      cases h
      exact .delay e
    · cases h
  case h_8 name hquote hlambda hlet hletrec hif hbegin hdelay =>
    split at h
    next b hb =>
      obtain ⟨found, hfound, hb⟩ := Option.bind_eq_some_iff.1 hb
      cases eq_sym_of_headName? hfound
      cases ofName?_eq_some.1 hb
      split at h
      next e rest =>
        split at h
        next arity =>
          cases h
          exact .builtin arity
        · cases h
      · cases h
    next hb =>
      cases h
      refine .apply es ?_
      rintro found rfl
      rw [isKeyword_eq_false]
      refine ⟨?_, hb⟩
      intro hmem
      simp only [specialForms, List.mem_cons, List.not_mem_nil, or_false] at hmem
      rcases hmem with rfl | rfl | rfl | rfl | rfl | rfl | rfl
      · exact hquote rfl
      · exact hlambda rfl
      · exact hlet rfl
      · exact hletrec rfl
      · exact hif rfl
      · exact hbegin rfl
      · exact hdelay rfl

theorem evalForm_apply {f tail : Value} {es : List Value}
    (call : ∀ name, f = .sym name → isKeyword name = false) :
    evalForm (.cons f tail) f es env stack
      = .ok (.eval f env (.operands none es [] env :: stack)) := by
  have special : ∀ {name : String}, (Value.cons f tail).headName? = some name →
      name ∉ specialForms :=
    fun hname => (isKeyword_eq_false.1 (call _ (eq_sym_of_headName? hname))).1
  unfold evalForm
  split
  case h_1 hname => exact absurd (by decide) (special hname)
  case h_2 hname => exact absurd (by decide) (special hname)
  case h_3 hname => exact absurd (by decide) (special hname)
  case h_4 hname => exact absurd (by decide) (special hname)
  case h_5 hname => exact absurd (by decide) (special hname)
  case h_6 hname => exact absurd (by decide) (special hname)
  case h_7 hname => exact absurd (by decide) (special hname)
  case h_8 =>
    split
    next b hb =>
      obtain ⟨name, hname, hfound⟩ := Option.bind_eq_some_iff.1 hb
      rw [(isKeyword_eq_false.1 (call name (eq_sym_of_headName? hname))).2] at hfound
      cases hfound
    · rfl

theorem evalForm_lambda {whole head params body : Value} {names : List String}
    (hhead : whole.headName? = some "lambda") (hnames : params.paramNames? = some names) :
    evalForm whole head [params, body] env stack
      = .ok (.ret (.closure names body env) stack) := by
  simp only [evalForm, hhead, hnames]

theorem evalForm_let {whole head bindings : Value} {pairs : List (String × Value)} (body : Value)
    (hhead : whole.headName? = some "let") (hpairs : bindings.bindingPairs? = some pairs) :
    evalForm whole head [bindings, body] env stack = .ok (bindState env body stack pairs) := by
  cases pairs <;> simp only [evalForm, hhead, hpairs, bindState]

theorem evalForm_letrec {whole head bindings : Value} {pairs : List (String × Value)} (body : Value)
    (hhead : whole.headName? = some "letrec") (hpairs : bindings.bindingPairs? = some pairs) :
    evalForm whole head [bindings, body] env stack
      = (letrecEnv env pairs).map fun scope => .eval body scope stack := by
  simp only [evalForm, hhead, hpairs]

theorem evalForm_builtin {b : Builtin} {whole head e : Value} {es : List Value}
    (hhead : whole.headName? = some b.name) :
    evalForm whole head (e :: es) env stack
      = if (e :: es).length = b.arity then
          .ok (.eval e env (.operands (some b) es [] env :: stack))
        else .error (.builtinArity b (e :: es).length) := by
  unfold evalForm
  rw [hhead]
  cases b <;> rfl

theorem evalExpr_eq_ok {e : Value} : evalExpr e env stack = .ok s ↔ Enters env stack e s := by
  constructor
  · intro h
    unfold evalExpr at h
    split at h
    case h_1 =>
      cases h
      exact .num _
    case h_2 =>
      cases h
      exact .str _
    case h_3 =>
      cases h
      exact .nil
    case h_4 name =>
      split at h
      next ht =>
        cases h
        cases ht
        exact .t
      next ht =>
        split at h
        next v hv =>
          cases h
          exact .symbol ht hv
        · cases h
    case h_5 f tail =>
      split at h
      next es hes =>
        cases toList?_eq_some.1 hes
        exact enters_of_evalForm h
      · cases h
    case h_6 => cases h
  · intro h
    cases h with
    | num | str | nil | t => rfl
    | symbol free bound => rw [evalExpr, if_neg free, bound]
    | quote => rfl
    | lambda body distinct =>
      rw [form, evalExpr_cons]
      exact evalForm_lambda rfl (paramNames?_eq_some.2 ⟨rfl, distinct⟩)
    | letIn pairs body =>
      rw [form, evalExpr_cons]
      exact evalForm_let body rfl (bindingPairs?_eq_some.2 rfl)
    | @letrecIn scope pairs body functions =>
      rw [form, evalExpr_cons, evalForm_letrec body rfl (bindingPairs?_eq_some.2 rfl)]
      exact map_eq_ok.2 ⟨scope, letrecEnv_eq_ok.2 functions, rfl⟩
    | branch test yes no => cases no <;> rfl
    | beginNone => rfl
    | begin e es =>
      rw [form, evalExpr_cons]
      cases es <;> rfl
    | delay => rfl
    | @builtin b e es arity =>
      rw [form, evalExpr_cons, evalForm_builtin rfl, if_pos arity]
    | apply es call => rw [evalExpr_cons, evalForm_apply call]

end

/-! ## Operations -/

/-- The state that the operation on some values leads to. -/
inductive Operates (stack : Stack) : Option Builtin → List Value → State → Prop
  | builtin {b : Builtin} {vs : List Value} {v : Value} (gives : b.Gives vs v) :
      Operates stack (some b) vs (.ret v stack)
  | force (inner : Value) (scope : Env) :
      Operates stack (some .force) [.thunk inner scope] (.eval inner scope stack)
  | forceValue {v : Value} (value : ∀ inner scope, v ≠ .thunk inner scope) :
      Operates stack (some .force) [v] (.ret v stack)
  | apply {fn body : Value} {vs : List Value} {params : List String} {scope : Env}
      (closes : fn.close = .closure params body scope) (count : vs.length = params.length) :
      Operates stack none (fn :: vs) (.eval body (scope.bindAll (params.zip vs)) stack)

theorem operate_eq_ok {target : Option Builtin} {vs : List Value} {stack : Stack} {s : State} :
    (∃ family, operate target vs stack = .ok (s, family)) ↔ Operates stack target vs s := by
  constructor
  · rintro ⟨family, h⟩
    unfold operate at h
    split at h
    case h_1 fn args =>
      obtain ⟨t, ht, h⟩ := map_eq_ok.1 h
      cases h
      unfold applyFunction at ht
      split at ht
      next params body scope closes =>
        split at ht
        next count =>
          cases ht
          exact .apply closes count
        · cases ht
      · cases ht
    case h_2 => cases h
    case h_3 inner scope =>
      cases h
      exact .force inner scope
    case h_4 v value =>
      cases h
      exact .forceValue value
    case h_5 b _ _ =>
      obtain ⟨v, hv, h⟩ := map_eq_ok.1 h
      cases h
      exact .builtin (applyBuiltin_eq_ok.1 hv)
  · intro h
    cases h with
    | @builtin b vs v gives =>
      have hoperate : operate (some b) vs stack
          = (applyBuiltin b vs).map fun v => (.ret v stack, b.family) := by
        cases b with
        | force => exact absurd gives not_gives_force
        | _ => rfl
      rw [hoperate, applyBuiltin_eq_ok.2 gives]
      exact ⟨b.family, rfl⟩
    | force inner scope => exact ⟨.core, rfl⟩
    | @forceValue v value =>
      refine ⟨.core, ?_⟩
      cases v with
      | thunk inner scope => exact absurd rfl (value inner scope)
      | _ => rfl
    | apply closes count =>
      refine ⟨.core, map_eq_ok.2 ⟨_, ?_, rfl⟩⟩
      rw [applyFunction, closes]
      exact if_pos count

/-! ## What goes on -/

section

variable (v : Value) (stack : Stack)

theorem resume_operands (target : Option Builtin) (e : Value) (waiting done : List Value)
    (env : Env) :
    resume v (.operands target (e :: waiting) done env :: stack)
      = .ok (.eval e env (.operands target waiting (done ++ [v]) env :: stack), .core) :=
  rfl

theorem resume_bind (name : String) (waiting : List (String × Value)) (body : Value) (env : Env) :
    resume v (.bind name waiting body env :: stack)
      = .ok (bindState (env.bind name v) body stack waiting, .core) := by
  cases waiting <;> rfl

theorem resume_sequence (e : Value) (waiting : List Value) (env : Env) :
    resume v (.sequence (e :: waiting) env :: stack)
      = .ok (sequenceState env stack e waiting, .core) := by
  cases waiting <;> rfl

end

end CommitChain.Machine
