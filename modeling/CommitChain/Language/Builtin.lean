/-!
# The builtin operations of the language

Each builtin has a name, a number of operands and a family.  The family of a reduction tells which
circuit proves it: reductions that only move control belong to the core.
-/

namespace CommitChain

/-- The families of reductions. -/
inductive Family
  | core
  | arith
  | cmp
  | pair
  deriving DecidableEq, Repr

namespace Family

def name : Family → String
  | core => "core"
  | arith => "arith"
  | cmp => "cmp"
  | pair => "pair"

/-- The families that have builtins of their own, in the order of their circuits. -/
def special : List Family := [arith, cmp, pair]

end Family

inductive Builtin
  | add | sub | mul | div | mod
  | equal | less | greater | lessEqual | greaterEqual
  | same
  | cons | car | cdr | atom
  | force
  deriving DecidableEq, Repr

namespace Builtin

def name : Builtin → String
  | add => "+" | sub => "-" | mul => "*" | div => "/" | mod => "%"
  | equal => "=" | less => "<" | greater => ">" | lessEqual => "<=" | greaterEqual => ">="
  | same => "eq"
  | cons => "cons" | car => "car" | cdr => "cdr" | atom => "atom"
  | force => "force"

def all : List Builtin :=
  [add, sub, mul, div, mod, equal, less, greater, lessEqual, greaterEqual, same, cons, car, cdr,
    atom, force]

def ofName? (name : String) : Option Builtin :=
  all.find? fun b => b.name = name

def arity : Builtin → Nat
  | car | cdr | atom | force => 1
  | _ => 2

def family : Builtin → Family
  | add | sub | mul | div | mod => .arith
  | equal | less | greater | lessEqual | greaterEqual | same => .cmp
  | cons | car | cdr | atom => .pair
  | force => .core

theorem ofName?_name (b : Builtin) : ofName? b.name = some b := by
  cases b <;> decide

end Builtin

end CommitChain
