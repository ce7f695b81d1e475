import CommitChain.Keyed
import CommitChain.Text.Normal

/-!
# Values

A value is a number, a symbol, a string, `nil`, a pair, a function or a suspended computation, and
code is made of the same values.  Functions and suspended computations hold the environment they
were made in, a list of bindings sorted by name.

A function that `letrec` binds is a `fix`: it holds its own name and the environment without that
name, so that the value stays finite; `close` gives the function with the name bound to itself.

Names and strings are kept in their normal form.  The constructors take them as they are; whoever
makes a value from outside text goes through `Value.symbol`, `Value.text`, `Value.function` and
`Env.ofPairs`.
-/

namespace CommitChain

inductive Value where
  | num (n : Int)
  | sym (name : String)
  | str (s : String)
  | nil
  | cons (head tail : Value)
  | closure (params : List String) (body : Value) (env : List (String × Value))
  | fix (name : String) (params : List String) (body : Value) (env : List (String × Value))
  | thunk (expr : Value) (env : List (String × Value))

/-- The bindings of an environment, sorted by name. -/
abbrev Env := List (String × Value)

namespace Env

def empty : Env := []

/-- The value bound to a name. -/
def lookup (env : Env) (name : String) : Option Value :=
  Keyed.find? name env

/-- The environment with one more binding, or another value for a name. -/
def bind (env : Env) (name : String) (value : Value) : Env :=
  Keyed.insert name value env

/-- Binds names one after the other. -/
def bindAll (env : Env) (pairs : List (String × Value)) : Env :=
  pairs.foldl (fun e p => e.bind p.1 p.2) env

/-- The bindings of the names that `keep` accepts. -/
def restrict (env : Env) (keep : String → Bool) : Env :=
  env.filter fun p => keep p.1

/-- The environment of pairs whose names may need normalization; the last value of a name counts. -/
def ofPairs (pairs : List (String × Value)) : Env :=
  bindAll empty (pairs.map fun p => (Text.normalize p.1, p.2))

/-- Replaces and adds bindings by name as it is written, and normalizes the names after that. -/
def extend (env : Env) (pairs : List (String × Value)) : Env :=
  ofPairs (pairs.foldl (fun e p => Keyed.put p.1 p.2 e) env)

def names (env : Env) : List String :=
  env.map Prod.fst

end Env

namespace Value

instance : Inhabited Value := ⟨nil⟩

/-! ## Making values from text -/

def symbol (name : String) : Value :=
  sym (Text.normalize name)

def text (s : String) : Value :=
  str (Text.normalize s)

def function (params : List String) (body : Value) (env : Env) : Value :=
  closure (params.map Text.normalize) body env

def recursive (name : String) (params : List String) (body : Value) (env : Env) : Value :=
  fix (Text.normalize name) (params.map Text.normalize) body env

/-! ## Truth -/

/-- The symbol that stands for true. -/
def t : Value := sym "t"

/-- Everything but `nil` counts as true. -/
def truthy : Value → Bool
  | nil => false
  | _ => true

def ofBool (b : Bool) : Value :=
  if b then t else nil

/-! ## Functions -/

def isFunction : Value → Bool
  | closure .. | fix .. => true
  | _ => false

/-- The environment in which the body of a `fix` runs. -/
def fixEnv (name : String) (params : List String) (body : Value) (env : Env) : Env :=
  env.bind name (fix name params body env)

/-- A function bound by `letrec` becomes a closure that knows itself. -/
def close : Value → Value
  | fix name params body env => closure params body (fixEnv name params body env)
  | v => v

def isCons : Value → Bool
  | cons .. => true
  | _ => false

def isAtom : Value → Bool
  | num _ | sym _ | str _ | nil => true
  | _ => false

/-! ## Chains of pairs as lists -/

/-- A chain of pairs that ends in `tail`. -/
def chain (items : List Value) (tail : Value) : Value :=
  items.foldr cons tail

/-- The list of some values. -/
def ofList (items : List Value) : Value :=
  chain items nil

/-- The heads along a chain of pairs. -/
def items : Value → List Value
  | cons a b => a :: items b
  | _ => []

/-- What a chain of pairs ends in. -/
def last : Value → Value
  | cons _ b => last b
  | v => v

/-- The items of a chain that ends in `nil`. -/
def toList? : Value → Option (List Value)
  | nil => some []
  | cons a b => (toList? b).map (a :: ·)
  | _ => none

theorem chain_items_last : ∀ v : Value, chain v.items v.last = v
  | cons a b => congrArg (cons a) (chain_items_last b)
  | num _ | sym _ | str _ | nil | closure .. | fix .. | thunk .. => rfl

theorem toList?_ofList (xs : List Value) : toList? (ofList xs) = some xs := by
  induction xs with
  | nil => rfl
  | cons a r ih => simp [ofList, chain, toList?] at ih ⊢; exact ih

theorem eq_ofList_of_toList? : ∀ {v : Value} {xs : List Value}, v.toList? = some xs → v = ofList xs
  | nil, xs, h => by cases h; rfl
  | cons a b, xs, h => by
    obtain ⟨r, hr, rfl⟩ := Option.map_eq_some_iff.1 h
    exact congrArg (cons a) (eq_ofList_of_toList? hr)

/-! ## Equality -/

mutual

/-- Whether two values are equal. -/
def beq : Value → Value → Bool
  | num m, num n => m == n
  | sym a, sym b => a == b
  | str a, str b => a == b
  | nil, nil => true
  | cons a b, cons c d => beq a c && beq b d
  | closure p b e, closure p' b' e' => p == p' && beq b b' && beqEnv e e'
  | fix n p b e, fix n' p' b' e' => n == n' && p == p' && beq b b' && beqEnv e e'
  | thunk x e, thunk y f => beq x y && beqEnv e f
  | _, _ => false

def beqEnv : List (String × Value) → List (String × Value) → Bool
  | [], [] => true
  | (k, v) :: r, (l, w) :: s => k == l && beq v w && beqEnv r s
  | _, _ => false

end

mutual

theorem beq_iff : ∀ v w : Value, beq v w = true ↔ v = w
  | num m, w => by cases w <;> simp [beq]
  | sym a, w => by cases w <;> simp [beq]
  | str a, w => by cases w <;> simp [beq]
  | nil, w => by cases w <;> simp [beq]
  | cons a b, w => by cases w <;> simp [beq, beq_iff a, beq_iff b]
  | closure p b e, w => by cases w <;> simp [beq, beq_iff b, beqEnv_iff e, and_assoc]
  | fix n p b e, w => by cases w <;> simp [beq, beq_iff b, beqEnv_iff e, and_assoc]
  | thunk x e, w => by cases w <;> simp [beq, beq_iff x, beqEnv_iff e]

theorem beqEnv_iff : ∀ e f : List (String × Value), beqEnv e f = true ↔ e = f
  | [], f => by cases f <;> simp [beqEnv]
  | (k, v) :: r, f => by
    cases f with
    | nil => simp [beqEnv]
    | cons p s => cases p; simp [beqEnv, beq_iff v, beqEnv_iff r, and_assoc]

end

instance : DecidableEq Value := fun v w => decidable_of_iff _ (beq_iff v w)

end Value

end CommitChain
