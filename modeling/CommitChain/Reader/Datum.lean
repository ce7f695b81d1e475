import CommitChain.Reader.Token
import CommitChain.Value

/-!
# Reading expressions

`Value.read` reads a text as one expression and `Value.readAll` as any number of them.  An
expression is an atom other than `.`, a string, a quote mark and an expression, or a list in
parentheses, whose end may be given behind a dot.  Expressions may be nested `depthLimit` deep.
-/

namespace CommitChain.Reader

/-- The most levels of nesting that are read. -/
def depthLimit : Nat := 200

/-- The characters that a string stands for, given what lies between its quotes. -/
def unescape? : List Char → Option (List Char)
  | [] => some []
  | '\\' :: 'n' :: cs => (unescape? cs).map ('\n' :: ·)
  | '\\' :: 't' :: cs => (unescape? cs).map ('\t' :: ·)
  | '\\' :: '\\' :: cs => (unescape? cs).map ('\\' :: ·)
  | '\\' :: '"' :: cs => (unescape? cs).map ('"' :: ·)
  | c :: cs => if c = '\\' then none else (unescape? cs).map (c :: ·)

/-- The value of a string with its quotes. -/
def stringValue (lexeme : List Char) (offset : Nat) : Except ReadFault Value :=
  match unescape? (lexeme.drop 1).dropLast with
  | some cs => .ok (Value.text (String.ofList cs))
  | none => .error (.invalidEscape offset)

/-- Whether an atom is an integer: an optional sign and digits of any script. -/
def isInteger (lexeme : List Char) : Bool :=
  let ds := (Text.splitSign lexeme).2
  !ds.isEmpty && ds.all Text.isDecimalDigit

/-- The value of an atom. -/
def atomValue (lexeme : List Char) (offset : Nat) : Except ReadFault Value :=
  if isInteger lexeme then
    let (negative, ds) := Text.splitSign lexeme
    if Text.digitLimit < ds.length then .error (.integerTooLong offset)
    else
      let n := Text.natOfDigits ds
      .ok (.num (if negative then -(n : Int) else n))
  else if lexeme = ['n', 'i', 'l'] then .ok .nil
  else .ok (Value.symbol (String.ofList lexeme))

/-- A dot that stands alone. -/
def isDot (token : Token) : Bool :=
  token.kind = .atom && token.lexeme = ['.']

mutual

/-- One expression inside `level` others.  The first number bounds the number of calls. -/
def datum (level : Nat) : Nat → List Token → Except ReadFault (Value × List Token)
  | 0, _ => .error .unexpectedEnd
  | fuel + 1, tokens =>
    if depthLimit ≤ level then .error .tooDeep
    else
      match tokens with
      | [] => .error .unexpectedEnd
      | token :: tokens =>
        match token.kind with
        | .opening => rest token.offset (level + 1) true fuel tokens
        | .closing => .error (.unexpectedClose token.offset)
        | .quote => do
          let (v, tokens) ← datum (level + 1) fuel tokens
          .ok (Value.ofList [.sym "quote", v], tokens)
        | .string => do
          let v ← stringValue token.lexeme token.offset
          .ok (v, tokens)
        | .atom => do
          if isDot token then .error (.unexpectedDot token.offset)
          else
            let v ← atomValue token.lexeme token.offset
            .ok (v, tokens)

/-- The rest of a list that was opened at `start`; `first` says that nothing of it was read yet. -/
def rest (start level : Nat) (first : Bool) :
    Nat → List Token → Except ReadFault (Value × List Token)
  | 0, _ => .error .unexpectedEnd
  | fuel + 1, tokens =>
    match tokens with
    | [] => .error (.unclosed start)
    | token :: others =>
      if token.kind = .closing then .ok (.nil, others)
      else if isDot token then
        if first then .error (.dotWithoutHead token.offset)
        else do
          let (v, tokens) ← datum level fuel others
          match tokens with
          | [] => .error .unexpectedEnd
          | token :: tokens =>
            if token.kind = .closing then .ok (v, tokens)
            else .error (.expectedClose token.offset)
      else do
        let (v, tokens) ← datum level fuel tokens
        let (w, tokens) ← rest start level false fuel tokens
        .ok (.cons v w, tokens)

end

/-- The number of calls that always suffices. -/
def enough (tokens : List Token) : Nat :=
  2 * tokens.length + 2

/-- All expressions of a row of tokens.  `calls` bounds the calls for each of them, and the other
number how many there are. -/
def data (calls : Nat) : Nat → List Token → Except ReadFault (List Value)
  | 0, _ => .ok []
  | _ + 1, [] => .ok []
  | fuel + 1, tokens => do
    let (v, tokens) ← datum 0 calls tokens
    let vs ← data calls fuel tokens
    .ok (v :: vs)

end CommitChain.Reader

namespace CommitChain.Value

open CommitChain.Reader

/-- Reads a text as one expression. -/
def read (text : String) : Except ReadFault Value := do
  let tokens ← Token.scan text
  if tokens.isEmpty then .error .emptyText
  else
    let (v, tokens) ← datum 0 (enough tokens) tokens
    match tokens with
    | [] => .ok v
    | token :: _ => .error (.trailing token.offset)

/-- Reads a text as any number of expressions. -/
def readAll (text : String) : Except ReadFault (List Value) := do
  let tokens ← Token.scan text
  data (enough tokens) tokens.length tokens

end CommitChain.Value
