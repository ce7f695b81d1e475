import CommitChain.Language.Builtin
import CommitChain.Value

/-!
# Forms

A form is a chain of pairs; the symbol in front of it decides how it is read.  The parts of forms
that have a shape of their own are parameter lists `(a b c)` with different names and binding lists
`((a x) (b y))`.
-/

namespace CommitChain.Value

/-- The names that start a special form. -/
def specialForms : List String :=
  ["quote", "lambda", "let", "letrec", "if", "begin", "delay"]

/-- The names that stand for themselves. -/
def selfEvaluating : List String :=
  ["t", "nil"]

/-- Whether a name in front of a form is not a variable. -/
def isKeyword (name : String) : Bool :=
  specialForms.contains name || (Builtin.ofName? name).isSome

/-- The symbol in front of a form. -/
def headName? : Value → Option String
  | cons (sym name) _ => some name
  | _ => none

def symbolName? : Value → Option String
  | sym name => some name
  | _ => none

/-- The names of a parameter list. -/
def paramNames? (v : Value) : Option (List String) := do
  let names ← (← v.toList?).mapM symbolName?
  if names.Nodup then some names else none

/-- The bindings of a binding list. -/
def bindingPairs? : Value → Option (List (String × Value))
  | nil => some []
  | cons (cons (sym name) (cons expr nil)) rest =>
    (bindingPairs? rest).map ((name, expr) :: ·)
  | _ => none

end CommitChain.Value
