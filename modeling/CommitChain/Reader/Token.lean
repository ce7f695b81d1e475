import CommitChain.Text.Blank
import CommitChain.Text.Integer
import CommitChain.Text.Quoted

/-!
# Tokens of the language

A text is a row of tokens with blanks and comments between them: parentheses, the quote mark,
strings between double quotes and atoms, which run up to the next blank or delimiter.  A comment
runs from a semicolon to the end of its line.

`Token.scan` reads the text one character at a time.  `Scan` is what it remembers, and `Scan.feed`
takes one character.  Only a string that is never closed cannot be read.
-/

namespace CommitChain

/-- Why a text is no expression.  Offsets count characters from the start of the text. -/
inductive ReadFault
  | unexpectedCharacter (c : Char) (offset : Nat)
  | invalidEscape (offset : Nat)
  | integerTooLong (offset : Nat)
  | tooDeep
  | unexpectedEnd
  | unexpectedClose (offset : Nat)
  | unexpectedDot (offset : Nat)
  | unclosed (offset : Nat)
  | dotWithoutHead (offset : Nat)
  | expectedClose (offset : Nat)
  | emptyText
  | trailing (offset : Nat)
  deriving DecidableEq, Repr

inductive TokenKind
  | opening
  | closing
  | quote
  | string
  | atom
  deriving DecidableEq, Repr

/-- A token with its text and the offset of its first character. -/
structure Token where
  kind : TokenKind
  lexeme : List Char
  offset : Nat
  deriving DecidableEq, Repr

/-- What the scanner is in the middle of.  The characters of an unfinished token come last one
first. -/
inductive Scan
  | between
  | comment
  | atom (start : Nat) (before : List Char)
  | string (start : Nat) (before : List Char) (escaped : Bool)
  deriving DecidableEq, Repr

namespace Scan

/-- The characters that end an atom. -/
def isDelimiter (c : Char) : Bool :=
  Text.isBlank c || c = '(' || c = ')' || c = '\'' || c = '"' || c = ';'

/-- A character between two tokens: the token it is, and what comes next. -/
def enter (offset : Nat) (c : Char) : List Token × Scan :=
  if Text.isBlank c then ([], between)
  else if c = ';' then ([], comment)
  else if c = '(' then ([⟨.opening, [c], offset⟩], between)
  else if c = ')' then ([⟨.closing, [c], offset⟩], between)
  else if c = '\'' then ([⟨.quote, [c], offset⟩], between)
  else if c = '"' then ([], string offset [c] false)
  else ([], atom offset [c])

/-- One more character: the tokens that it completes, and what comes next. -/
def feed (offset : Nat) (c : Char) : Scan → Except ReadFault (List Token × Scan)
  | between => .ok (enter offset c)
  | comment => .ok ([], if c = '\n' then between else comment)
  | atom start before =>
    if isDelimiter c then
      .ok (⟨.atom, before.reverse, start⟩ :: (enter offset c).1, (enter offset c).2)
    else .ok ([], atom start (c :: before))
  | string start before true =>
    if c = '\n' then .error (.unexpectedCharacter '"' start)
    else .ok ([], string start (c :: before) false)
  | string start before false =>
    if c = '"' then .ok ([⟨.string, (c :: before).reverse, start⟩], between)
    else .ok ([], string start (c :: before) (c = '\\'))

/-- The end of the text: the token that it completes. -/
def finish : Scan → Except ReadFault (List Token)
  | between | comment => .ok []
  | atom start before => .ok [⟨.atom, before.reverse, start⟩]
  | string start _ _ => .error (.unexpectedCharacter '"' start)

/-- The tokens of the rest of a text. -/
def run (scan : Scan) (offset : Nat) : List Char → Except ReadFault (List Token)
  | [] => scan.finish
  | c :: cs =>
    match scan.feed offset c with
    | .error e => .error e
    | .ok ([], next) => next.run (offset + 1) cs
    | .ok (tokens, next) =>
      match next.run (offset + 1) cs with
      | .error e => .error e
      | .ok rest => .ok (tokens ++ rest)

end Scan

/-- The tokens of a text. -/
def Token.scan (text : String) : Except ReadFault (List Token) :=
  Scan.between.run 0 text.toList

/-- The wording of a fault. -/
def ReadFault.message : ReadFault → String
  | unexpectedCharacter c offset =>
    "Unexpected character " ++ Text.quoted (String.singleton c) ++ s!" at offset {offset}"
  | invalidEscape offset => s!"Invalid escape in string at offset {offset}"
  | integerTooLong offset =>
    s!"Integer literal at offset {offset} is too long: Exceeds the limit ({Text.digitLimit} digits)"
  | tooDeep => "Expression nested deeper than 200 levels"
  | unexpectedEnd => "Unexpected end of input"
  | unexpectedClose offset => s!"Unexpected ')' at offset {offset}"
  | unexpectedDot offset => s!"Unexpected '.' at offset {offset}"
  | unclosed offset => s!"Unclosed '(' at offset {offset}"
  | dotWithoutHead offset => s!"Dotted pair without head at offset {offset}"
  | expectedClose offset => s!"Expected ')' after dotted tail at offset {offset}"
  | emptyText => "Empty expression"
  | trailing offset => s!"Trailing input at offset {offset}"

end CommitChain
