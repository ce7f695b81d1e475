import CommitChain.Text.Integer
import CommitChain.Value

/-!
# The printed form of values

`Value.print?` writes a value the way it is read: `nil`, numbers, names and strings as they stand, a
chain of pairs in parentheses, and `(quote x)` as `'x`.  Functions and suspended computations have a
form of their own, which shows their code but not their environment.  There is no printed form for a
value with a number beyond the digit limit.
-/

namespace CommitChain.Value

/-- One character of a string between double quotes. -/
def escapedChar (c : Char) : List Char :=
  if c = '\\' then ['\\', '\\']
  else if c = '"' then ['\\', '"']
  else if c = '\n' then ['\\', 'n']
  else [c]

/-- A string between double quotes. -/
def printString (s : String) : String :=
  "\"" ++ String.ofList (s.toList.flatMap escapedChar) ++ "\""

/-- What stands for a value behind the items of a chain, if it is no pair and not `nil`. -/
def asTail (inTail : Bool) (text : String) : String :=
  if inTail then " . " ++ text ++ ")" else text

/-- The text of a value, or of the rest of a chain with its closing parenthesis. -/
def render (inTail : Bool) : Value → Option String
  | num n => (Text.integerText? n).map (asTail inTail)
  | sym name => some (asTail inTail name)
  | str s => some (asTail inTail (printString s))
  | nil => some (if inTail then ")" else "nil")
  | cons (sym name) (cons x nil) => do
    let text ← render false x
    some <|
      if inTail then " " ++ name ++ " " ++ text ++ ")"
      else if name = "quote" then "'" ++ text
      else "(" ++ name ++ " " ++ text ++ ")"
  | cons a b => do
    let first ← render false a
    let rest ← render true b
    some ((if inTail then " " else "(") ++ first ++ rest)
  | closure params body _ | fix _ params body _ => do
    let text ← render false body
    some (asTail inTail ("<FUNCTION (" ++ String.intercalate " " params ++ ") " ++ text ++ ">"))
  | thunk expr _ => do
    let text ← render false expr
    some (asTail inTail ("<THUNK " ++ text ++ ">"))

/-- The printed form of a value. -/
def print? (v : Value) : Option String :=
  render false v

end CommitChain.Value
