import CommitChain.Json.Digest
import CommitChain.Value.Encoding

/-!
# States of the machine

The machine evaluates an expression in an environment, with a stack of what remains to be done
around it.  A run from outside starts by a call, whose function stands in the state as a reference
of the caller's choice, and ends by halting with a value.

The encoding of a state records of each environment only what the code beside it can still read.
-/

namespace CommitChain.Machine

/-- What remains to be done with the value of a part. -/
inductive Pending
  /-- Operands still to be evaluated and those done; the operation is a builtin, or else an
  application whose first operand is the function. -/
  | operands (target : Option Builtin) (waiting done : List Value) (env : Env)
  | branch (thenExpr elseExpr : Value) (env : Env)
  | bind (name : String) (waiting : List (String × Value)) (body : Value) (env : Env)
  | sequence (waiting : List Value) (env : Env)

/-- The innermost part comes first. -/
abbrev Stack := List Pending

inductive State
  | eval (expr : Value) (env : Env) (stack : Stack)
  | ret (value : Value) (stack : Stack)
  | call (fn : Value) (args : List Value) (ref : Json)
  | halt (value : Value)

/-! ## Encodings -/

/-- The free variables of a row of bindings around code with the free variables `inner`, each
binding holding in those behind it. -/
def freeInRow (inner : List String) : List (String × Value) → List String
  | [] => inner
  | (name, expr) :: rest =>
    (freeInRow inner rest).filter (· ≠ name) ++ expr.freeVariables

def encodeAll (vs : List Value) : Json :=
  .arr (vs.map Value.encode)

def Pending.encode : Pending → Json
  | operands target waiting done env =>
    .arr [.str "args", .str (target.elim "apply" Builtin.name), encodeAll waiting, encodeAll done,
      Value.encodeScope (waiting.flatMap Value.freeVariables) env]
  | branch thenExpr elseExpr env =>
    .arr [.str "if", thenExpr.encode, elseExpr.encode,
      Value.encodeScope (thenExpr.freeVariables ++ elseExpr.freeVariables) env]
  | bind name waiting body env =>
    .arr [.str "let", .str name, .arr (waiting.map fun p => .arr [.str p.1, p.2.encode]),
      body.encode,
      Value.encodeScope ((freeInRow body.freeVariables waiting).filter (· ≠ name)) env]
  | sequence waiting env =>
    .arr [.str "begin", encodeAll waiting,
      Value.encodeScope (waiting.flatMap Value.freeVariables) env]

/-- A state with its control part and the encodings of its stack. -/
def stateJson (control : List Json) (stack : List Json) : Json :=
  .obj [("control", .arr control), ("kont", .arr stack)]

/-- The state in which a function that goes by a reference is called. -/
def callState (ref : Json) (args : List Json) : Json :=
  stateJson [.str "call", ref, .arr args] []

/-- The state that has come to a result. -/
def haltState (result : Json) : Json :=
  stateJson [.str "halt", result] []

def State.encode : State → Json
  | eval expr env stack =>
    stateJson [.str "eval", expr.encode, Value.encodeScope expr.freeVariables env]
      (stack.map Pending.encode)
  | ret value stack => stateJson [.str "ret", value.encode] (stack.map Pending.encode)
  | call _ args ref => callState ref (args.map Value.encode)
  | halt value => haltState value.encode

/-- The digest of an encoded state. -/
def stateDigest (state : Json) : Except Json.CanonicalFault Hash.Digest :=
  state.digest Hash.stateDomain

end CommitChain.Machine
