import CommitChain.Text.Blank
import CommitChain.Text.DecimalDigit

/-!
# Integers in decimal

Integers are unbounded, but a text may hold at most `digitLimit` digits of one: neither reading nor
writing goes beyond it.  Leading zeros count and the sign does not.
-/

namespace CommitChain.Text

/-- The most digits an integer may have in a text. -/
def digitLimit : Nat := 4300

/-- The first number with more than `digitLimit` digits. -/
def integerBound : Nat := Nat.pow 10 digitLimit

/-- The decimal text of an integer, whatever its length. -/
def integerDigits (n : Int) : String :=
  if n < 0 then "-" ++ n.natAbs.repr else n.natAbs.repr

/-- The decimal text of an integer with at most `digitLimit` digits. -/
def integerText? (n : Int) : Option String :=
  if n.natAbs < integerBound then some (integerDigits n) else none

/-- Why a text is no integer. -/
inductive IntegerFault
  | malformed
  | tooLong
  deriving DecidableEq, Repr

/-- The number that digits of any script write. -/
def natOfDigits (ds : List Char) : Nat :=
  ds.foldl (fun n c => 10 * n + (digitValue? c).getD 0) 0

/-- An optional sign in front of the rest. -/
def splitSign : List Char → Bool × List Char
  | '-' :: cs => (true, cs)
  | '+' :: cs => (false, cs)
  | cs => (false, cs)

/-- Digits of any script, where `_` may stand between two of them; the underscores are dropped. -/
def groupedDigits? : List Char → Option (List Char)
  | [] => none
  | [c] => if isDecimalDigit c then some [c] else none
  | c :: '_' :: cs =>
    if isDecimalDigit c then (groupedDigits? cs).map (c :: ·) else none
  | c :: cs =>
    if isDecimalDigit c then (groupedDigits? cs).map (c :: ·) else none

/-- Whether `c` may stand in a group of digits. -/
def inGroup (c : Char) : Bool :=
  isDecimalDigit c || c = '_'

/-- Reads a whole text as an integer: white space around it, a sign and grouped digits.  That there
are too many digits is found before what stands behind them. -/
def integer? (s : String) : Except IntegerFault Int :=
  let (negative, cs) := splitSign (trim isSpace s.toList)
  match groupedDigits? (cs.takeWhile inGroup) with
  | none => .error .malformed
  | some ds =>
    if digitLimit < ds.length then .error .tooLong
    else if cs.all inGroup then
      .ok (if negative then -(natOfDigits ds : Int) else natOfDigits ds)
    else .error .malformed

end CommitChain.Text
