import CommitChain.Number.Reading
import CommitChain.Disk.Path
import CommitChain.Text.Integer

/-!
# Arguments

The grammar of the command line.  A command and its operands mix with options in any order.  A long
option may be shortened as long as it stays clear which one is meant, and takes its value behind `=`
or as the next argument; `--` ends the options.  A negative number is an operand.

`Arguments.read` reads the arguments of one command.
-/

namespace CommitChain

/-- What an option does. -/
inductive OptionKind
  | help
  | version
  | switch
  | value
  deriving DecidableEq, Repr

/-- An option with the ways to write it. -/
structure OptionSpec where
  spellings : List String
  kind : OptionKind
  deriving DecidableEq, Repr

namespace OptionSpec

def name (o : OptionSpec) : String :=
  o.spellings.getLast?.getD ""

def long (name : String) (kind : OptionKind) : OptionSpec :=
  ⟨["--" ++ name], kind⟩

def helpOption : OptionSpec := ⟨["-h", "--help"], .help⟩

end OptionSpec

/-- A way to write an option, and the option. -/
abbrev Spelling := String × OptionSpec

/-- How an argument counts. -/
inductive ArgumentClass
  | operand
  | ending
  /-- An option with the value behind `=`, if there is one, or else with the letters that follow a
  single dash and its letter. -/
  | option (spec : OptionSpec) (value : Option String) (letters : List Char)
  | unknown
  deriving DecidableEq, Repr

/-- What stops the reading of arguments. -/
inductive Stop
  | help
  | version
  | misuse
  deriving DecidableEq, Repr

namespace Arguments

/-! ## Classes -/

def spellings (options : List OptionSpec) : List Spelling :=
  options.flatMap fun o => o.spellings.map fun s => (s, o)

/-- Splits a text at the first `=`. -/
def splitAtEquals (s : String) : String × Option String :=
  let cs := s.toList
  match cs.dropWhile (· ≠ '=') with
  | [] => (s, none)
  | _ :: value => (String.ofList (cs.takeWhile (· ≠ '=')), some (String.ofList value))

/-- Whether `s` starts with `start`. -/
def startsWith (start s : String) : Bool :=
  start.toList.isPrefixOf s.toList

/-- The options that a shortened one, or one with more letters behind it, may stand for. -/
def candidates (options : List OptionSpec) (s : String) : List ArgumentClass :=
  match s.toList with
  | '-' :: '-' :: _ =>
    let (start, value) := splitAtEquals s
    ((spellings options).filter fun p => startsWith start p.1).map fun p => .option p.2 value []
  | '-' :: c :: letters =>
    (spellings options).filterMap fun p =>
      if p.1.toList = ['-', c] then some (.option p.2 none letters) else none
  | _ => []

/-- Whether a text is a negative number: a minus, digits, and digits behind a point. -/
def isNegativeNumber (s : String) : Bool :=
  match s.toList with
  | '-' :: cs =>
    let fraction := cs.dropWhile Text.isDecimalDigit
    match fraction with
    | [] => !cs.isEmpty
    | '.' :: ds => !ds.isEmpty && ds.all Text.isDecimalDigit
    | _ => false
  | _ => false

/-- The class of an argument in front of the end of the options; `none` if it is ambiguous. -/
def classify? (options : List OptionSpec) (s : String) : Option ArgumentClass :=
  match s.toList with
  | '-' :: _ :: _ =>
    match (spellings options).find? fun p => p.1 = s with
    | some p => some (.option p.2 none [])
    | none =>
      let (start, value) := splitAtEquals s
      match value, (spellings options).find? fun p => p.1 = start with
      | some v, some p => some (.option p.2 (some v) [])
      | _, _ =>
        match candidates options s with
        | [c] => some c
        | _ :: _ :: _ => none
        | [] =>
          if isNegativeNumber s || s.toList.contains ' ' then some .operand else some .unknown
  | _ => some .operand

/-- The classes of all arguments; behind `--` all are operands. -/
def classifyAll (options : List OptionSpec) : List String → Option (List (String × ArgumentClass))
  | [] => some []
  | s :: rest =>
    if s = "--" then some ((s, .ending) :: rest.map fun t => (t, .operand))
    else do
      let c ← classify? options s
      let cs ← classifyAll options rest
      some ((s, c) :: cs)

/-! ## Options and operands of a command -/

/-- What was read so far. -/
structure Collected where
  options : List (String × String)
  operands : List String
  /-- Whether there was something that belongs nowhere. -/
  surplus : Bool
  /-- Whether an operand was missing behind the last option. -/
  room : Bool
  /-- Whether the last argument was an operand. -/
  behindOperand : Bool
  /-- Whether the mark `--` belongs to the next operand. -/
  marked : Bool

namespace Collected

def start (arity : Nat) : Collected := ⟨[], [], false, 0 < arity, false, false⟩

def withOption (c : Collected) (arity : Nat) (name value : String) : Collected :=
  { c with
    options := c.options ++ [(name, value)]
    room := c.operands.length < arity
    behindOperand := false }

/-- Takes an operand.  A second `--` is one only if the mark belongs to it, and else counts as an
empty text. -/
def withOperand (c : Collected) (s : String) : Collected :=
  { c with
    operands := c.operands ++ [if s = "--" && !c.marked then "" else s]
    behindOperand := true
    marked := false }

/-- Takes the mark `--`, which belongs to the operand in front of it or else to the next one. -/
def withMark (c : Collected) : Collected :=
  { c with surplus := c.surplus || !c.room, marked := !c.behindOperand }

/-- The value of an option; the last one counts. -/
def option? (c : Collected) (name : String) : Option String :=
  (c.options.reverse.find? fun p => p.1 = name).map Prod.snd

end Collected

/-- Whether letters behind a single dash and its letter can stand there: up to the first that is no
option, they are options without a value and without `=` or a dash. -/
def acceptsLetters (options : List OptionSpec) : List Char → Bool
  | [] => true
  | c :: rest =>
    c ≠ '-' && c ≠ '='
      && (((spellings options).all fun p => p.1.toList ≠ ['-', c]) || acceptsLetters options rest)

/-- What an option without a value stops, given what stands behind it. -/
def plainStop (options : List OptionSpec) (spec : OptionSpec) (value : Option String)
    (letters : List Char) : Option Stop :=
  if value.isSome || !acceptsLetters options letters then some .misuse
  else
    match spec.kind with
    | .help => some .help
    | .version => some .version
    | _ => none

/-- Reads the arguments of a command that has `arity` operands.  `accepts` says which values an
option can take. -/
def collect (options : List OptionSpec) (accepts : String → String → Bool) (arity : Nat)
    (acc : Collected) : List (String × ArgumentClass) → Except Stop Collected
  | [] => .ok acc
  | (_, .option spec value letters) :: rest =>
    if spec.kind = .value then
      match value, rest with
      | none, (v, .operand) :: rest =>
        if accepts spec.name v then
          collect options accepts arity (acc.withOption arity spec.name v) rest
        else .error .misuse
      | some v, rest =>
        if accepts spec.name v then
          collect options accepts arity (acc.withOption arity spec.name v) rest
        else .error .misuse
      | none, _ => .error .misuse
    else
      match plainStop options spec value letters with
      | some stop => .error stop
      | none => collect options accepts arity (acc.withOption arity spec.name "") rest
  | (_, .unknown) :: rest =>
    collect options accepts arity
      { acc with surplus := true, room := acc.operands.length < arity, behindOperand := false } rest
  | (s, .operand) :: rest =>
    if acc.operands.length < arity then
      collect options accepts arity (acc.withOperand s) rest
    else collect options accepts arity { acc with surplus := true } rest
  | (_, .ending) :: rest =>
    collect options accepts arity acc.withMark rest

/-- Reads the arguments of a command: options with their values and exactly `arity` operands.  The
flag tells whether there was anything else. -/
def read (options : List OptionSpec) (accepts : String → String → Bool) (arity : Nat)
    (arguments : List String) : Except Stop Collected := do
  match classifyAll options arguments with
  | none => .error .misuse
  | some classified =>
    let c ← collect options accepts arity (.start arity) classified
    if c.operands.length < arity then .error .misuse else .ok c

end Arguments

end CommitChain
