import CommitChain.Proofs.Language.Form

/-!
# The natural semantics of the language

`Evaluates env e v` says what an expression comes to, with no machine: by rules over the
expressions, one for each way to read one.  Operands are evaluated before the operation and from
left to right, `let` and `letrec` bind one name after the other, and a suspended expression is
evaluated anew by each `force`.

The rules speak of forms as they are built from their parts; that a chain of pairs is such a form is
the business of `paramNames?_eq_some` and `bindingPairs?_eq_some`.
-/

namespace CommitChain

/-! ## Operations -/

open Value

/-- The value of a builtin but `force`; a quotient is rounded down, and the remainder goes with
it. -/
inductive Builtin.Gives : Builtin → List Value → Value → Prop
  | add (m n : Int) : Gives .add [.num m, .num n] (.num (m + n))
  | sub (m n : Int) : Gives .sub [.num m, .num n] (.num (m - n))
  | mul (m n : Int) : Gives .mul [.num m, .num n] (.num (m * n))
  | div {m n q r : Int} (whole : m = q * n + r) (rest : 0 ≤ r ∧ r < n ∨ n < r ∧ r ≤ 0) :
      Gives .div [.num m, .num n] (.num q)
  | mod {m n q r : Int} (whole : m = q * n + r) (rest : 0 ≤ r ∧ r < n ∨ n < r ∧ r ≤ 0) :
      Gives .mod [.num m, .num n] (.num r)
  | equal (m n : Int) : Gives .equal [.num m, .num n] (ofBool (m = n))
  | less (m n : Int) : Gives .less [.num m, .num n] (ofBool (m < n))
  | greater (m n : Int) : Gives .greater [.num m, .num n] (ofBool (m > n))
  | lessEqual (m n : Int) : Gives .lessEqual [.num m, .num n] (ofBool (m ≤ n))
  | greaterEqual (m n : Int) : Gives .greaterEqual [.num m, .num n] (ofBool (m ≥ n))
  | same (v w : Value) : Gives .same [v, w] (ofBool (v = w))
  | cons (v w : Value) : Gives .cons [v, w] (.cons v w)
  | car (v w : Value) : Gives .car [.cons v w] v
  | carNil : Gives .car [.nil] .nil
  | cdr (v w : Value) : Gives .cdr [.cons v w] w
  | cdrNil : Gives .cdr [.nil] .nil
  | atom (v : Value) : Gives .atom [v] (ofBool v.isAtom)

/-- What the bindings of a `letrec` make of an environment: a function sees the bindings in front of
it and itself. -/
inductive BindsFunctions : Env → List (String × Value) → Env → Prop
  | nil (env : Env) : BindsFunctions env [] env
  | cons {env scope : Env} {name : String} {params : List String} {body : Value}
      {rest : List (String × Value)} (distinct : params.Nodup)
      (others : BindsFunctions (env.bind name (.fix name params body env)) rest scope) :
      BindsFunctions env ((name, form "lambda" [nameList params, body]) :: rest) scope

/-! ## Evaluation -/

mutual

/-- An expression comes to a value in an environment. -/
inductive Evaluates : Env → Value → Value → Prop
  | num (env : Env) (n : Int) : Evaluates env (.num n) (.num n)
  | str (env : Env) (s : String) : Evaluates env (.str s) (.str s)
  | nil (env : Env) : Evaluates env .nil .nil
  | t (env : Env) : Evaluates env .t .t
  | symbol {env : Env} {name : String} {v : Value} (free : name ≠ "t")
      (bound : env.lookup name = some v) : Evaluates env (.sym name) v.close
  | quote (env : Env) (v : Value) : Evaluates env (form "quote" [v]) v
  | lambda (env : Env) {params : List String} (body : Value) (distinct : params.Nodup) :
      Evaluates env (form "lambda" [nameList params, body]) (.closure params body env)
  | letIn {env scope : Env} {pairs : List (String × Value)} {body v : Value}
      (bindings : Binds env pairs scope) (result : Evaluates scope body v) :
      Evaluates env (form "let" [bindingList pairs, body]) v
  | letrecIn {env scope : Env} {pairs : List (String × Value)} {body v : Value}
      (functions : BindsFunctions env pairs scope) (result : Evaluates scope body v) :
      Evaluates env (form "letrec" [bindingList pairs, body]) v
  | ifTrue {env : Env} {test w yes v : Value} {no : Option Value} (decided : Evaluates env test w)
      (truth : w ≠ .nil) (result : Evaluates env yes v) :
      Evaluates env (form "if" (test :: yes :: no.toList)) v
  | ifNil {env : Env} {test yes v : Value} {no : Option Value}
      (decided : Evaluates env test .nil) (result : Evaluates env (no.getD .nil) v) :
      Evaluates env (form "if" (test :: yes :: no.toList)) v
  | beginNone (env : Env) : Evaluates env (form "begin" []) .nil
  | begin {env : Env} {es vs : List Value} {v : Value} (all : EvaluatesAll env es (vs ++ [v])) :
      Evaluates env (form "begin" es) v
  | delay (env : Env) (e : Value) : Evaluates env (form "delay" [e]) (.thunk e env)
  | force {env scope : Env} {e inner v : Value} (operand : Evaluates env e (.thunk inner scope))
      (result : Evaluates scope inner v) : Evaluates env (form "force" [e]) v
  | forceValue {env : Env} {e v : Value} (operand : Evaluates env e v)
      (value : ∀ inner scope, v ≠ .thunk inner scope) : Evaluates env (form "force" [e]) v
  | builtin {env : Env} {b : Builtin} {es vs : List Value} {v : Value}
      (operands : EvaluatesAll env es vs) (gives : b.Gives vs v) :
      Evaluates env (form b.name es) v
  | apply {env scope : Env} {f fn body v : Value} {es vs : List Value} {params : List String}
      (call : ∀ name, f = .sym name → isKeyword name = false) (function : Evaluates env f fn)
      (operands : EvaluatesAll env es vs) (closes : fn.close = .closure params body scope)
      (count : vs.length = params.length)
      (result : Evaluates (scope.bindAll (params.zip vs)) body v) :
      Evaluates env (.cons f (ofList es)) v

/-- Expressions come to values in an environment, from left to right. -/
inductive EvaluatesAll : Env → List Value → List Value → Prop
  | nil (env : Env) : EvaluatesAll env [] []
  | cons {env : Env} {e v : Value} {es vs : List Value} (first : Evaluates env e v)
      (others : EvaluatesAll env es vs) : EvaluatesAll env (e :: es) (v :: vs)

/-- What the bindings of a `let` make of an environment. -/
inductive Binds : Env → List (String × Value) → Env → Prop
  | nil (env : Env) : Binds env [] env
  | cons {env scope : Env} {name : String} {e v : Value} {rest : List (String × Value)}
      (value : Evaluates env e v) (others : Binds (env.bind name v) rest scope) :
      Binds env ((name, e) :: rest) scope

end

end CommitChain
