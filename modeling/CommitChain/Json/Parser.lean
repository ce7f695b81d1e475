import CommitChain.Json.Basic
import CommitChain.Number.Reading

/-!
# Reading JSON text

`Json.parse` reads a whole text as one tree.  Digits are ASCII, characters below U+0020 may not
stand in a string as they are, and surrogates only as the two escapes of one character.  How many
digits an integer may have and how deep filled arrays and objects may be nested is up to the caller.
-/

namespace CommitChain.Json

/-- Why a text is not read. -/
inductive Fault
  | malformed
  | integerTooLong
  | tooDeep
  deriving DecidableEq, Repr

/-- The bounds on what is read; `none` stands for no bound. -/
structure Limits where
  digits : Option Nat := some Text.digitLimit
  nesting : Option Nat := some textNestingLimit

/-- A reader takes its part off the front of a text. -/
abbrev Reader (α : Type) := List Char → Except Fault (α × List Char)

/-- The characters that may stand between tokens. -/
def isLayout (c : Char) : Bool :=
  c = ' ' || c = '\t' || c = '\n' || c = '\r'

def skipLayout (cs : List Char) : List Char :=
  cs.dropWhile isLayout

/-! ## Strings -/

/-- The value of a hexadecimal digit in either case. -/
def hexValue? (c : Char) : Option Nat :=
  if '0' ≤ c ∧ c ≤ '9' then some (c.toNat - 48)
  else if 'a' ≤ c ∧ c ≤ 'f' then some (c.toNat - 87)
  else if 'A' ≤ c ∧ c ≤ 'F' then some (c.toNat - 55)
  else none

/-- The unit that four digits write. -/
def unit? (a b c d : Char) : Option Nat := do
  let a ← hexValue? a
  let b ← hexValue? b
  let c ← hexValue? c
  let d ← hexValue? d
  some (((a * 16 + b) * 16 + c) * 16 + d)

/-- The character that a backslash and one more character write. -/
def escape? : Char → Option Char
  | '"' => some '"'
  | '\\' => some '\\'
  | '/' => some '/'
  | 'b' => some '\x08'
  | 'f' => some '\x0c'
  | 'n' => some '\n'
  | 'r' => some '\r'
  | 't' => some '\t'
  | _ => none

/-- The rest of a string behind its opening quote.  `before` holds its characters so far, the last
one first, and `high` the first half of a character that two escapes write. -/
def stringFrom (before : List Char) (high : Option Nat) : Reader String
  | [] => .error .malformed
  | '"' :: cs => if high.isSome then .error .malformed else .ok (String.ofList before.reverse, cs)
  | '\\' :: 'u' :: a :: b :: c :: d :: cs =>
    match unit? a b c d, high with
    | none, _ => .error .malformed
    | some n, some h =>
      if 0xDC00 ≤ n ∧ n < 0xE000 then
        stringFrom (Char.ofNat (0x10000 + (h - 0xD800) * 0x400 + (n - 0xDC00)) :: before) none cs
      else .error .malformed
    | some n, none =>
      if 0xD800 ≤ n ∧ n < 0xDC00 then stringFrom before (some n) cs
      else if 0xDC00 ≤ n ∧ n < 0xE000 then .error .malformed
      else stringFrom (Char.ofNat n :: before) none cs
  | '\\' :: e :: cs =>
    match escape? e, high with
    | some c, none => stringFrom (c :: before) none cs
    | _, _ => .error .malformed
  | c :: cs =>
    if c = '\\' ∨ c.toNat < 0x20 ∨ high.isSome then .error .malformed
    else stringFrom (c :: before) none cs

/-! ## Numbers -/

def isDigit (c : Char) : Bool :=
  '0' ≤ c && c ≤ '9'

/-- The digits of the integer part: a zero alone or digits that start with another one. -/
def wholeDigits : List Char → List Char × List Char
  | '0' :: cs => (['0'], cs)
  | cs => (cs.takeWhile isDigit, cs.dropWhile isDigit)

/-- A point and digits, if they stand here. -/
def fraction? : List Char → Option (List Char × List Char)
  | '.' :: cs =>
    if (cs.takeWhile isDigit).isEmpty then none
    else some (cs.takeWhile isDigit, cs.dropWhile isDigit)
  | _ => none

/-- An exponent, if one stands here. -/
def exponent? : List Char → Option (Int × List Char)
  | c :: cs =>
    if c = 'e' ∨ c = 'E' then
      let (negative, cs) := Text.splitSign cs
      let ds := cs.takeWhile isDigit
      if ds.isEmpty then none
      else
        let n := Text.natOfDigits ds
        some (if negative then -(n : Int) else n, cs.dropWhile isDigit)
    else none
  | [] => none

/-- A number without its sign. -/
def unsigned (limits : Limits) (negative : Bool) : Reader Json := fun cs =>
  let (whole, cs) := wholeDigits cs
  if whole.isEmpty then
    match negative, cs with
    | true, 'I' :: 'n' :: 'f' :: 'i' :: 'n' :: 'i' :: 't' :: 'y' :: cs =>
      .ok (float (.infinite true), cs)
    | _, _ => .error .malformed
  else
    match fraction? cs, exponent? ((fraction? cs).elim cs Prod.snd) with
    | none, none =>
      if limits.digits.any (· < whole.length) then .error .integerTooLong
      else
        let n := Text.natOfDigits whole
        .ok (int (if negative then -(n : Int) else n), cs)
    | some (ds, cs), none => .ok (float (Binary64.ofDigits negative whole ds 0), cs)
    | f, some (e, cs) =>
      .ok (float (Binary64.ofDigits negative whole (f.elim [] Prod.fst) e), cs)

/-- A number or one of the words. -/
def scalar (limits : Limits) : Reader Json
  | 'n' :: 'u' :: 'l' :: 'l' :: cs => .ok (null, cs)
  | 't' :: 'r' :: 'u' :: 'e' :: cs => .ok (bool true, cs)
  | 'f' :: 'a' :: 'l' :: 's' :: 'e' :: cs => .ok (bool false, cs)
  | 'N' :: 'a' :: 'N' :: cs => .ok (float .nan, cs)
  | 'I' :: 'n' :: 'f' :: 'i' :: 'n' :: 'i' :: 't' :: 'y' :: cs => .ok (float (.infinite false), cs)
  | '-' :: cs => unsigned limits true cs
  | cs => unsigned limits false cs

/-! ## Trees -/

/-- Whether a filled array or object may stand inside `level` others. -/
def Limits.admits (limits : Limits) (level : Nat) : Bool :=
  limits.nesting.all (level < ·)

mutual

/-- One tree inside `level` arrays and objects.  The first argument bounds the number of calls. -/
def value (limits : Limits) (level : Nat) : Nat → Reader Json
  | 0, _ => .error .malformed
  | fuel + 1, cs =>
    match cs with
    | '"' :: cs => do
      let (s, cs) ← stringFrom [] none cs
      .ok (str s, cs)
    | '[' :: cs =>
      match skipLayout cs with
      | ']' :: cs => .ok (arr [], cs)
      | cs => do
        if limits.admits level then
          let (xs, cs) ← items limits (level + 1) fuel cs
          .ok (arr xs, cs)
        else .error .tooDeep
    | '\x7b' :: cs =>
      match skipLayout cs with
      | '\x7d' :: cs => .ok (obj [], cs)
      | cs => do
        if limits.admits level then
          let (ms, cs) ← members limits (level + 1) fuel cs
          .ok (object ms, cs)
        else .error .tooDeep
    | cs => scalar limits cs

/-- The items up to the closing bracket. -/
def items (limits : Limits) (level : Nat) : Nat → Reader (List Json)
  | 0, _ => .error .malformed
  | fuel + 1, cs => do
    let (x, cs) ← value limits level fuel cs
    match skipLayout cs with
    | ',' :: cs =>
      let (xs, cs) ← items limits level fuel (skipLayout cs)
      .ok (x :: xs, cs)
    | ']' :: cs => .ok ([x], cs)
    | _ => .error .malformed

/-- The members up to the closing brace. -/
def members (limits : Limits) (level : Nat) : Nat → Reader (List (String × Json))
  | 0, _ => .error .malformed
  | fuel + 1, cs =>
    match cs with
    | '"' :: cs => do
      let (k, cs) ← stringFrom [] none cs
      match skipLayout cs with
      | ':' :: cs =>
        let (x, cs) ← value limits level fuel (skipLayout cs)
        match skipLayout cs with
        | ',' :: cs =>
          let (ms, cs) ← members limits level fuel (skipLayout cs)
          .ok ((k, x) :: ms, cs)
        | '\x7d' :: cs => .ok ([(k, x)], cs)
        | _ => .error .malformed
      | _ => .error .malformed
    | _ => .error .malformed

end

/-- Reads a whole text. -/
def parseChars (limits : Limits) (cs : List Char) : Except Fault Json := do
  let (x, rest) ← value limits 0 (2 * cs.length + 2) (skipLayout cs)
  if (skipLayout rest).isEmpty then .ok x else .error .malformed

/-- Reads a whole text within the usual bounds. -/
def parse (s : String) : Except Fault Json :=
  parseChars ⟨some Text.digitLimit, some textNestingLimit⟩ s.toList

end CommitChain.Json
