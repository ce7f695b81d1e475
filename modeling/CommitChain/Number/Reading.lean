import CommitChain.Number.Binary64
import CommitChain.Text.Integer

/-!
# Reading numbers with a fraction

`Binary64.ofText?` reads a whole text: white space around it, a sign, digits of any script with an
optional point and exponent, where `_` may stand between two digits; or `inf`, `infinity` and `nan`
in any case.
-/

namespace CommitChain.Binary64

open CommitChain.Text

/-- The number that digits in front of and behind the point, and an exponent, write. -/
def ofDigits (negative : Bool) (whole fraction : List Char) (exponent : Int) : Binary64 :=
  ofDecimal negative (natOfDigits (whole ++ fraction)) (exponent - fraction.length)

/-- The longest group of digits in front, possibly empty, and the rest. -/
def spanGroup (cs : List Char) : List Char × List Char :=
  (cs.takeWhile inGroup, cs.dropWhile inGroup)

/-- A group of digits, or nothing. -/
def optionalGroup? (cs : List Char) : Option (List Char) :=
  if cs.isEmpty then some [] else groupedDigits? cs

/-- What stands behind the digits: nothing, or a mark `e` and a whole number. -/
def exponentOf? : List Char → Option Int
  | [] => some 0
  | c :: cs =>
    if c = 'e' ∨ c = 'E' then
      let (negative, ds) := splitSign cs
      (groupedDigits? ds).map fun ds =>
        if negative then -(natOfDigits ds : Int) else natOfDigits ds
    else none

/-- A number without its sign. -/
def unsignedOfChars? (negative : Bool) (cs : List Char) : Option Binary64 :=
  let word := String.ofList (cs.map Char.toLower)
  if word = "inf" ∨ word = "infinity" then some (.infinite negative)
  else if word = "nan" then some .nan
  else do
    let (whole, rest) := spanGroup cs
    let (fraction, rest) :=
      match rest with
      | '.' :: rest => spanGroup rest
      | rest => ([], rest)
    let whole ← optionalGroup? whole
    let fraction ← optionalGroup? fraction
    if whole.isEmpty && fraction.isEmpty then none
    else do
      let exponent ← exponentOf? rest
      some (ofDigits negative whole fraction exponent)

/-- Reads a whole text as a number. -/
def ofText? (s : String) : Option Binary64 :=
  let (negative, cs) := splitSign (trim isSpace s.toList)
  unsignedOfChars? negative cs

end CommitChain.Binary64
