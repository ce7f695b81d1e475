import CommitChain.Language.Form

/-!
# Free variables

The names that an expression refers to and does not bind itself.  A function keeps the bindings of
its free variables and no others, so what is free decides what is hashed.

A malformed special form counts as a plain application of its parts; that it is malformed is
reported when, and if, it is evaluated.  The end of an improper chain is never looked at.
-/

namespace CommitChain.Value

mutual

/-- The free variables of an expression; a name may come more than once. -/
def freeVariables : Value → List String
  | sym name => if selfEvaluating.contains name then [] else [name]
  | cons (sym form) (cons first (cons body rest)) =>
    if form = "quote" then []
    else if form = "lambda" ∧ ¬rest.isCons ∧ (paramNames? first).isSome then
      (freeVariables body).filter fun x => !((paramNames? first).getD []).contains x
    else if form = "let" ∧ ¬rest.isCons ∧ (bindingPairs? first).isSome then
      freeInBindings false (freeVariables body) first
    else if form = "letrec" ∧ ¬rest.isCons ∧ (bindingPairs? first).isSome then
      freeInBindings true (freeVariables body) first
    else
      (if isKeyword form ∨ selfEvaluating.contains form then [] else [form])
        ++ freeVariables first ++ freeVariables body ++ freeInItems rest
  | cons (sym form) rest =>
    if form = "quote" then []
    else
      (if isKeyword form ∨ selfEvaluating.contains form then [] else [form]) ++ freeInItems rest
  | cons head rest => freeVariables head ++ freeInItems rest
  | _ => []

/-- The free variables of the items of a chain. -/
def freeInItems : Value → List String
  | cons head rest => freeVariables head ++ freeInItems rest
  | _ => []

/-- The free variables of a binding list around code with the free variables `inner`.  Each binding
holds in those behind it, and in its own expression if `own` is set. -/
def freeInBindings (own : Bool) (inner : List String) : Value → List String
  | cons (cons (sym name) (cons expr _)) rest =>
    (freeInBindings own inner rest).filter (· ≠ name)
      ++ (freeVariables expr).filter fun x => !(own && x = name)
  | _ => inner

end

/-- Names in ascending order, each once. -/
def sortedNames (names : List String) : List String :=
  (Keyed.sorted (names.map fun n => (n, ()))).map Prod.fst

/-- The free variables of a function. -/
def freeInFunction (params : List String) (body : Value) : List String :=
  (freeVariables body).filter fun x => !params.contains x

/-- The free variables of a function that knows itself. -/
def freeInFix (name : String) (params : List String) (body : Value) : List String :=
  (freeInFunction params body).filter (· ≠ name)

end CommitChain.Value
