import CommitChain.Machine.State
import CommitChain.Value.Printer

/-!
# One reduction

`State.step` is the whole semantics of the language: it takes a state that has not halted to the
next one, and tells the family of the reduction.  Application is by value, operands are evaluated
from left to right, `let` and `letrec` bind one name after the other, and `delay` suspends an
expression that `force` evaluates anew each time.

The faults are those of the program that is run, but for `stuck`: a state whose stack does not fit
its operations has no next one.
-/

namespace CommitChain.Machine

inductive Fault
  | unbound (name : String)
  | notAnExpression (v : Value)
  | improperForm (v : Value)
  | malformed (form : String) (v : Value)
  | oneArgument (form : String)
  | letrecNotLambda (name : String)
  | letrecMalformed (name : String)
  | builtinArity (b : Builtin) (given : Nat)
  | notNumber (b : Builtin) (v : Value)
  | divisionByZero (b : Builtin)
  | notPair (b : Builtin) (v : Value)
  | notFunction (v : Value)
  | argumentCount (expected given : Nat)
  | outOfBudget (limit : Int)
  | unhashable (fault : Json.CanonicalFault)
  | stuck

/-- The wording of a fault.  It may show a value, and there is none for a value with a number too
long to print. -/
def Fault.message? : Fault → Option String
  | unbound name => some s!"Unbound variable '{name}'"
  | notAnExpression v => v.print?.map fun text => s!"Cannot evaluate {text}"
  | improperForm v => v.print?.map fun text => s!"Improper list in expression {text}"
  | malformed form v => v.print?.map fun text => s!"Malformed {form}: {text}"
  | oneArgument form => some s!"{form} expects exactly one argument"
  | letrecNotLambda name => some s!"letrec binding '{name}' must be a lambda"
  | letrecMalformed name => some s!"Malformed lambda in letrec binding '{name}'"
  | builtinArity b given =>
    some ("'" ++ b.name ++ "' expects " ++ b.arity.repr ++ " argument(s), got " ++ given.repr)
  | notNumber b v => v.print?.map fun text => "'" ++ b.name ++ "' expects numbers, got " ++ text
  | divisionByZero b => some ("'" ++ b.name ++ "' by zero")
  | notPair b v => v.print?.map fun text => "'" ++ b.name ++ "' expects a pair, got " ++ text
  | notFunction v => v.print?.map fun text => s!"Cannot apply non-function {text}"
  | argumentCount expected given =>
    some s!"Function expects {expected} argument(s), got {given}"
  | outOfBudget limit => some s!"Step budget exceeded (limit {limit})"
  | unhashable fault => some ("Machine state cannot be hashed: " ++ fault.message)
  | stuck => some "Machine is not runnable"

/-! ## Builtins -/

/-- The numbers that two operands are. -/
def numbers (b : Builtin) : Value → Value → Except Fault (Int × Int)
  | .num m, .num n => .ok (m, n)
  | .num _, w => .error (.notNumber b w)
  | v, _ => .error (.notNumber b v)

/-- The value of a builtin; division rounds down. -/
def applyBuiltin (b : Builtin) (args : List Value) : Except Fault Value :=
  match b, args with
  | .add, [v, w] => (numbers b v w).map fun (m, n) => .num (m + n)
  | .sub, [v, w] => (numbers b v w).map fun (m, n) => .num (m - n)
  | .mul, [v, w] => (numbers b v w).map fun (m, n) => .num (m * n)
  | .div, [v, w] => do
    let (m, n) ← numbers b v w
    if n = 0 then .error (.divisionByZero b) else .ok (.num (m.fdiv n))
  | .mod, [v, w] => do
    let (m, n) ← numbers b v w
    if n = 0 then .error (.divisionByZero b) else .ok (.num (m.fmod n))
  | .equal, [v, w] => (numbers b v w).map fun (m, n) => Value.ofBool (m = n)
  | .less, [v, w] => (numbers b v w).map fun (m, n) => Value.ofBool (m < n)
  | .greater, [v, w] => (numbers b v w).map fun (m, n) => Value.ofBool (n < m)
  | .lessEqual, [v, w] => (numbers b v w).map fun (m, n) => Value.ofBool (m ≤ n)
  | .greaterEqual, [v, w] => (numbers b v w).map fun (m, n) => Value.ofBool (n ≤ m)
  | .same, [v, w] => .ok (Value.ofBool (v = w))
  | .cons, [v, w] => .ok (.cons v w)
  | .car, [v] =>
    match v with
    | .nil => .ok .nil
    | .cons head _ => .ok head
    | v => .error (.notPair b v)
  | .cdr, [v] =>
    match v with
    | .nil => .ok .nil
    | .cons _ tail => .ok tail
    | v => .error (.notPair b v)
  | .atom, [v] => .ok (Value.ofBool v.isAtom)
  | _, _ => .error .stuck

/-! ## Control -/

/-- Enters the body of a function. -/
def applyFunction (fn : Value) (args : List Value) (stack : Stack) : Except Fault State :=
  match fn.close with
  | .closure params body env =>
    if args.length = params.length then .ok (.eval body (Env.bindAll env (params.zip args)) stack)
    else .error (.argumentCount params.length args.length)
  | v => .error (.notFunction v)

/-- The environment of the body of a `letrec`: each function sees the bindings in front of it and
itself. -/
def letrecEnv (env : Env) : List (String × Value) → Except Fault Env
  | [] => .ok env
  | (name, expr) :: rest =>
    match expr.headName?, expr.toList? with
    | some "lambda", some [_, params, body] =>
      match params.paramNames? with
      | some names => letrecEnv (env.bind name (.fix name names body env)) rest
      | none => .error (.letrecMalformed name)
    | _, _ => .error (.letrecNotLambda name)

/-- Starts on a form, given as the whole, what stands in front, and its arguments. -/
def evalForm (form head : Value) (args : List Value) (env : Env) (stack : Stack) :
    Except Fault State :=
  match form.headName? with
  | some "quote" =>
    match args with
    | [v] => .ok (.ret v stack)
    | _ => .error (.oneArgument "quote")
  | some "lambda" =>
    match args with
    | [params, body] =>
      match params.paramNames? with
      | some names => .ok (.ret (.closure names body env) stack)
      | none => .error (.malformed "lambda" form)
    | _ => .error (.malformed "lambda" form)
  | some "let" =>
    match args with
    | [bindings, body] =>
      match bindings.bindingPairs? with
      | some [] => .ok (.eval body env stack)
      | some ((name, expr) :: rest) => .ok (.eval expr env (.bind name rest body env :: stack))
      | none => .error (.malformed "let" form)
    | _ => .error (.malformed "let" form)
  | some "letrec" =>
    match args with
    | [bindings, body] =>
      match bindings.bindingPairs? with
      | some pairs => (letrecEnv env pairs).map fun scope => .eval body scope stack
      | none => .error (.malformed "letrec" form)
    | _ => .error (.malformed "letrec" form)
  | some "if" =>
    match args with
    | [test, thenExpr] => .ok (.eval test env (.branch thenExpr .nil env :: stack))
    | [test, thenExpr, elseExpr] => .ok (.eval test env (.branch thenExpr elseExpr env :: stack))
    | _ => .error (.malformed "if" form)
  | some "begin" =>
    match args with
    | [] => .ok (.ret .nil stack)
    | [expr] => .ok (.eval expr env stack)
    | expr :: rest => .ok (.eval expr env (.sequence rest env :: stack))
  | some "delay" =>
    match args with
    | [expr] => .ok (.ret (.thunk expr env) stack)
    | _ => .error (.oneArgument "delay")
  | name =>
    match name.bind Builtin.ofName? with
    | some b =>
      match args with
      | first :: rest =>
        if args.length = b.arity then
          .ok (.eval first env (.operands (some b) rest [] env :: stack))
        else .error (.builtinArity b args.length)
      | [] => .error (.builtinArity b 0)
    | none => .ok (.eval head env (.operands none args [] env :: stack))

/-- Starts on an expression. -/
def evalExpr (expr : Value) (env : Env) (stack : Stack) : Except Fault State :=
  match expr with
  | .num _ | .str _ | .nil => .ok (.ret expr stack)
  | .sym name =>
    if name = "t" then .ok (.ret .t stack)
    else
      match env.lookup name with
      | some v => .ok (.ret v.close stack)
      | none => .error (.unbound name)
  | .cons head tail =>
    match tail.toList? with
    | some args => evalForm expr head args env stack
    | none => .error (.improperForm expr)
  | v => .error (.notAnExpression v)

/-- The operation on operands that are all there. -/
def operate (target : Option Builtin) (done : List Value) (stack : Stack) :
    Except Fault (State × Family) :=
  match target, done with
  | none, fn :: args => (applyFunction fn args stack).map fun s => (s, .core)
  | none, [] => .error .stuck
  | some .force, [.thunk expr env] => .ok (.eval expr env stack, .core)
  | some .force, [v] => .ok (.ret v stack, .core)
  | some b, done => (applyBuiltin b done).map fun v => (.ret v stack, b.family)

/-- Hands a value to what remains to be done. -/
def resume (value : Value) : Stack → Except Fault (State × Family)
  | [] => .ok (.halt value, .core)
  | .operands target (expr :: waiting) done env :: stack =>
    .ok (.eval expr env (.operands target waiting (done ++ [value]) env :: stack), .core)
  | .operands target [] done _ :: stack => operate target (done ++ [value]) stack
  | .branch thenExpr elseExpr env :: stack =>
    .ok (.eval (if value.truthy then thenExpr else elseExpr) env stack, .core)
  | .bind name [] body env :: stack => .ok (.eval body (env.bind name value) stack, .core)
  | .bind name ((next, expr) :: waiting) body env :: stack =>
    let scope := env.bind name value
    .ok (.eval expr scope (.bind next waiting body scope :: stack), .core)
  | .sequence [expr] env :: stack => .ok (.eval expr env stack, .core)
  | .sequence (expr :: waiting) env :: stack =>
    .ok (.eval expr env (.sequence waiting env :: stack), .core)
  | .sequence [] _ :: _ => .error .stuck

/-- The next state and the family of the reduction. -/
def State.step : State → Except Fault (State × Family)
  | eval expr env stack => (evalExpr expr env stack).map fun s => (s, .core)
  | ret value stack => resume value stack
  | call fn args _ => (applyFunction fn args []).map fun s => (s, .core)
  | halt _ => .error .stuck

end CommitChain.Machine
