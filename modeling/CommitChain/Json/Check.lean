import CommitChain.Json.Parser

/-!
# Checking trees against a shape

A check reads a tree as something else or lists everything that is wrong with it, each issue with
the path to its place.  Checks of different members run side by side, so one issue does not hide
another.

Numbers may come in other clothes: an integer as a truth value, a number without a fraction or a
text; a truth value as a number or a word.  Texts are never made of anything else.
-/

namespace CommitChain

/-- What is wrong with a part of a tree. -/
inductive Flaw
  | missing
  | unexpectedMember
  | notObject
  | notArray
  | notText
  | notInteger
  | noIntegerText
  | integerTextTooLong
  | fraction
  | notFinite
  | tooSmall
  | notNumber
  | noNumberText
  | notPositive
  | notTruth
  | noTruthText
  | notChoice
  | invalidJson
  | custom (message : String)
  deriving DecidableEq, Repr

/-- The name of a flaw. -/
def Flaw.name : Flaw → String
  | missing => "missing"
  | unexpectedMember => "extra_forbidden"
  | notObject => "model_type"
  | notArray => "tuple_type"
  | notText => "string_type"
  | notInteger => "int_type"
  | noIntegerText => "int_parsing"
  | integerTextTooLong => "int_parsing_size"
  | fraction => "int_from_float"
  | notFinite => "finite_number"
  | tooSmall => "greater_than_equal"
  | notNumber => "float_type"
  | noNumberText => "float_parsing"
  | notPositive => "greater_than"
  | notTruth => "bool_type"
  | noTruthText => "bool_parsing"
  | notChoice => "literal_error"
  | invalidJson => "json_invalid"
  | custom _ => "value_error"

/-- The wording that belongs to a flaw of the library's own. -/
def Flaw.message? : Flaw → Option String
  | custom message => some ("Value error, " ++ message)
  | _ => none

/-- A flaw and the names and positions that lead to it. -/
structure Issue where
  path : List String
  flaw : Flaw
  deriving DecidableEq, Repr

def Issue.location (issue : Issue) : String :=
  String.intercalate "." issue.path

/-- The outcome of a check: a value, or what is wrong. -/
inductive Checked (α : Type) where
  | good (value : α)
  | bad (issues : List Issue)

namespace Checked

/-- Runs two checks and keeps the issues of both. -/
def seq {α β : Type} (f : Checked (α → β)) (x : Checked α) : Checked β :=
  match f, x with
  | good f, good x => good (f x)
  | good _, bad is => bad is
  | bad is, good _ => bad is
  | bad is, bad js => bad (is ++ js)

instance : Applicative Checked where
  pure := good
  seq f x := seq f (x ())

/-- One more condition on a value that passed. -/
def andThen {α β : Type} (x : Checked α) (f : α → Checked β) : Checked β :=
  match x with
  | good x => f x
  | bad is => bad is

def toExcept {α : Type} : Checked α → Except (List Issue) α
  | good x => .ok x
  | bad is => .error is

end Checked

/-- A check of the tree at a path. -/
abbrev Check (α : Type) := List String → Json → Checked α

namespace Check

variable {α : Type}

def fail (path : List String) (flaw : Flaw) : Checked α :=
  .bad [⟨path, flaw⟩]

/-- Any tree will do. -/
def any : Check Json := fun _ x => .good x

def text : Check String := fun path x =>
  match x with
  | .str s => .good s
  | _ => fail path .notText

/-- A condition on a value that passed, with the wording of what is wrong otherwise. -/
def ensure (check : Check α) (problem? : α → Option String) : Check α := fun path x =>
  (check path x).andThen fun v =>
    match problem? v with
    | none => .good v
    | some message => fail path (.custom message)

/-! ## Numbers in text -/

/-- Drops a point and zeros at the end. -/
def withoutZeroFraction (cs : List Char) : List Char :=
  let whole := cs.takeWhile (· ≠ '.')
  match cs.dropWhile (· ≠ '.') with
  | '.' :: zeros => if zeros.all (· = '0') then whole else cs
  | _ => cs

/-- Drops single underscores between other characters. -/
def withoutUnderscores? : List Char → Option (List Char)
  | [] => some []
  | ['_'] => none
  | '_' :: '_' :: _ => none
  | '_' :: cs => withoutUnderscores? cs
  | c :: cs => (withoutUnderscores? cs).map (c :: ·)

/-- The integer that a text writes with ASCII digits. -/
def integerOfText (s : String) : Except Flaw Int :=
  let cs := Text.trim Text.isSpace s.toList
  if Text.digitLimit < cs.length then .error .integerTextTooLong
  else
    let (negative, cs) := Text.splitSign (withoutZeroFraction cs)
    match cs.head?, withoutUnderscores? cs with
    | some '_', _ | none, _ | _, none => .error .noIntegerText
    | _, some ds =>
      if ds.all Json.isDigit then
        let n := Text.natOfDigits ds
        .ok (if negative then -(n : Int) else n)
      else .error .noIntegerText

/-- The number that a text writes with ASCII digits, or one of the words for numbers. -/
def numberOfText? (s : String) : Option Binary64 :=
  let cs := Text.trim Text.isSpace s.toList
  if cs.all (fun c => c.toNat < 0x80) && cs.head? ≠ some '_' then
    (withoutUnderscores? cs).bind fun cs =>
      if cs.any Text.isBlank then none else Binary64.ofText? (String.ofList cs)
  else none

/-- The words for truth values, in any case. -/
def truthOfText? (s : String) : Option Bool :=
  let word := String.ofList (s.toList.map Char.toLower)
  if ["0", "off", "f", "false", "n", "no"].contains word then some false
  else if ["1", "on", "t", "true", "y", "yes"].contains word then some true
  else none

/-! ## Numbers and truth values -/

/-- The bound below which the integer part of a number with a fraction is taken over. -/
def wordBound : Nat := Nat.pow 2 63

def integer : Check Int := fun path x =>
  match x with
  | .int n => .good n
  | .bool b => .good (if b then 1 else 0)
  | .float x =>
    match x with
    | .finite .. =>
      match x.toInt? with
      | some n => if n.natAbs < wordBound then .good n else fail path .integerTextTooLong
      | none => fail path .fraction
    | _ => fail path .notFinite
  | .str s =>
    match integerOfText s with
    | .ok n => .good n
    | .error flaw => fail path flaw
  | _ => fail path .notInteger

/-- An integer that is not less than `low`. -/
def atLeast (low : Nat) : Check Nat := fun path x =>
  (integer path x).andThen fun n =>
    if n < low then fail path .tooSmall else .good n.toNat

def number : Check Binary64 := fun path x =>
  match x with
  | .int n => .good (Binary64.ofInt n)
  | .bool b => .good (Binary64.ofInt (if b then 1 else 0))
  | .float x => .good x
  | .str s =>
    match numberOfText? s with
    | some x => .good x
    | none => fail path .noNumberText
  | _ => fail path .notNumber

def positive : Check Binary64 := fun path x =>
  (number path x).andThen fun x => if x.atMostZero then fail path .notPositive else .good x

/-- The truth value that an integer is. -/
def truthOfInteger (path : List String) (n : Int) : Checked Bool :=
  if n = 0 then .good false
  else if n = 1 then .good true
  else if n.natAbs < wordBound then fail path .noTruthText
  else fail path .notTruth

def truth : Check Bool := fun path x =>
  match x with
  | .bool b => .good b
  | .int n => truthOfInteger path n
  | .float x =>
    match x.toInt? with
    | some n => truthOfInteger path n
    | none => fail path .notTruth
  | .str s =>
    match truthOfText? s with
    | some b => .good b
    | none => fail path .noTruthText
  | _ => fail path .notTruth

/-! ## Compound shapes -/

/-- `null` or something that passes the check. -/
def optional (check : Check α) : Check (Option α) := fun path x =>
  match x with
  | .null => .good none
  | x => some <$> check path x

/-- The items of an array from number `index` on. -/
def itemsFrom (check : Check α) (path : List String) (index : Nat) : List Json → Checked (List α)
  | [] => .good []
  | x :: xs => List.cons <$> check (path ++ [index.repr]) x <*> itemsFrom check path (index + 1) xs

def array (check : Check α) : Check (List α) := fun path x =>
  match x with
  | .arr xs => itemsFrom check path 0 xs
  | _ => fail path .notArray

/-- A member of an object. -/
def member (name : String) (check : Check α) : List (String × Json) → List String → Checked α :=
  fun members path =>
    match Keyed.find? name members with
    | some x => check (path ++ [name]) x
    | none => fail (path ++ [name]) .missing

/-- A member that may be absent. -/
def memberOr (name : String) (default : α) (check : Check α) :
    List (String × Json) → List String → Checked α :=
  fun members path =>
    match Keyed.find? name members with
    | some x => check (path ++ [name]) x
    | none => .good default

/-- An object with no members but those named. -/
def object (names : List String) (check : List (String × Json) → List String → Checked α) :
    Check α := fun path x =>
  match x with
  | .obj members =>
    let others := (members.map Prod.fst).filter fun k => !names.contains k
    let issues := others.map fun k => Issue.mk (path ++ [k]) .unexpectedMember
    (fun v _ => v) <$> check members path
      <*> if issues.isEmpty then .good () else .bad issues
  | _ => fail path .notObject

/-- How deep filled arrays and objects may be nested in a text that is checked as it is read. -/
def textNesting : Nat := 200

/-- Runs a check on a whole tree. -/
def run (check : Check α) (x : Json) : Except (List Issue) α :=
  (check [] x).toExcept

/-- Reads a text and runs a check on it; a text that is no JSON is one more issue. -/
def runText (check : Check α) (text : String) : Except (List Issue) α :=
  match Json.parseChars ⟨some Text.digitLimit, some textNesting⟩ text.toList with
  | .ok x => check.run x
  | .error _ => .error [⟨[], .invalidJson⟩]

end Check

end CommitChain
