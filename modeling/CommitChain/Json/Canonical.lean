import CommitChain.Json.Parser
import CommitChain.Json.Printer
import CommitChain.Text.Normal

/-!
# The canonical text of a JSON tree

What is hashed must not depend on how a tree happens to be laid out.  `canonicalForm` brings texts
and names into their normal form and sorts members by name; `canonical` writes that form without
blanks.  Trees with a number that is no integer are refused, with the path to the first of them,
and so are trees with an integer too long to write.
-/

namespace CommitChain.Json

/-- Why a tree has no canonical text. -/
inductive CanonicalFault
  | float (path : String)
  | integerTooLong
  deriving DecidableEq, Repr

/-- The wording for a number beyond the digit limit. -/
def digitsMessage : String :=
  s!"Exceeds the limit ({Text.digitLimit} digits)"

def CanonicalFault.message : CanonicalFault → String
  | .float path =>
    let place := if path.isEmpty then "<root>" else path
    s!"Floats are not allowed in canonical encodings (at {place})."
  | .integerTooLong => "Cannot serialize object: " ++ digitsMessage

mutual

/-- The path to the first number that is no integer. -/
def floatPath? (path : String) : Json → Option String
  | float _ => some path
  | arr items => floatPathItems? path 0 items
  | obj members => floatPathMembers? path members
  | _ => none

def floatPathItems? (path : String) (index : Nat) : List Json → Option String
  | [] => none
  | x :: xs =>
    match floatPath? s!"{path}[{index}]" x with
    | some found => some found
    | none => floatPathItems? path (index + 1) xs

def floatPathMembers? (path : String) : List (String × Json) → Option String
  | [] => none
  | (k, x) :: xs =>
    match floatPath? (if path.isEmpty then k else path ++ "." ++ k) x with
    | some found => some found
    | none => floatPathMembers? path xs

end

mutual

/-- Whether every integer can be written. -/
def integersFit : Json → Bool
  | int n => n.natAbs < Text.integerBound
  | arr items => integersFitItems items
  | obj members => integersFitMembers members
  | _ => true

def integersFitItems : List Json → Bool
  | [] => true
  | x :: xs => integersFit x && integersFitItems xs

def integersFitMembers : List (String × Json) → Bool
  | [] => true
  | (_, x) :: xs => integersFit x && integersFitMembers xs

end

/-- Sorts members by name, brings the names into their normal form and sorts again; of two names
with one normal form the greater one counts. -/
def sortMembers (members : List (String × Json)) : List (String × Json) :=
  Keyed.sorted ((Keyed.sorted members).map fun p => (Text.normalize p.1, p.2))

mutual

/-- Texts in normal form and members in the order of their names. -/
def canonicalForm : Json → Json
  | str s => str (Text.normalize s)
  | arr items => arr (canonicalItems items)
  | obj members => obj (sortMembers (canonicalMembers members))
  | x => x

def canonicalItems : List Json → List Json
  | [] => []
  | x :: xs => canonicalForm x :: canonicalItems xs

def canonicalMembers : List (String × Json) → List (String × Json)
  | [] => []
  | (k, x) :: xs => (k, canonicalForm x) :: canonicalMembers xs

end

/-- The canonical text of a tree. -/
def canonical (x : Json) : Except CanonicalFault String :=
  match floatPath? "" x with
  | some path => .error (.float path)
  | none =>
    if integersFit (canonicalForm x) then .ok (render .compact (canonicalForm x))
    else .error .integerTooLong

end CommitChain.Json
