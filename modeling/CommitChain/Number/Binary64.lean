/-!
# Double precision numbers

A finite number is `± mantissa * 2 ^ exponent` with a mantissa below `2 ^ 53`; everything here is
exact arithmetic on natural numbers.  `ofRatio` rounds a quotient to the nearest number, a tie to
the even mantissa.
-/

namespace CommitChain

/-- A number of the format binary64. -/
inductive Binary64
  | finite (negative : Bool) (mantissa : Nat) (exponent : Int)
  | infinite (negative : Bool)
  | nan
  deriving DecidableEq, Repr

namespace Binary64

/-- The exponent of the smallest numbers. -/
def minExponent : Int := -1074

/-- The exponent of the largest numbers. -/
def maxExponent : Int := 971

def zero (negative : Bool) : Binary64 :=
  .finite negative 0 minExponent

/-- `num / den / 2 ^ e` as a quotient of natural numbers. -/
def scaled (num den : Nat) (e : Int) : Nat × Nat :=
  if e < 0 then (num * Nat.pow 2 e.natAbs, den) else (num, den * Nat.pow 2 e.natAbs)

/-- The nearest whole number to a quotient, a tie going to the even one. -/
def roundQuotient (num den : Nat) : Nat :=
  let q := num / den
  let r := num % den
  if den < 2 * r ∨ (den = 2 * r ∧ q % 2 = 1) then q + 1 else q

/-- The number nearest to `num / den`. -/
def ofRatio (negative : Bool) (num den : Nat) : Binary64 :=
  if num = 0 then zero negative
  else
    let guess : Int := max minExponent ((num.log2 : Int) - den.log2 - 52)
    let (n, d) := scaled num den guess
    let e := if n / d < Nat.pow 2 52 ∧ minExponent < guess then guess - 1 else guess
    let (n, d) := scaled num den e
    let m := roundQuotient n d
    let (m, e) := if m = Nat.pow 2 53 then (Nat.pow 2 52, e + 1) else (m, e)
    if maxExponent < e then .infinite negative else .finite negative m e

/-- The number nearest to `± digits * 10 ^ scale`. -/
def ofDecimal (negative : Bool) (digits : Nat) (scale : Int) : Binary64 :=
  let size : Int := (Nat.toDigits 10 digits).length + scale
  if digits = 0 ∨ size < -400 then zero negative
  else if 400 < size then .infinite negative
  else if scale < 0 then ofRatio negative digits (Nat.pow 10 scale.natAbs)
  else ofRatio negative (digits * Nat.pow 10 scale.natAbs) 1

/-- The number nearest to an integer. -/
def ofInt (n : Int) : Binary64 :=
  ofRatio (n < 0) n.natAbs 1

/-- The integer that a number is, if it is one. -/
def toInt? : Binary64 → Option Int
  | .finite negative m e =>
    let whole? :=
      if 0 ≤ e then some (m * Nat.pow 2 e.natAbs)
      else if m % Nat.pow 2 e.natAbs = 0 then some (m / Nat.pow 2 e.natAbs) else none
    whole?.map fun n => if negative then -(n : Int) else n
  | _ => none

/-- The integer part of a finite number. -/
def truncate? : Binary64 → Option Int
  | .finite negative m e =>
    let n := if 0 ≤ e then m * Nat.pow 2 e.natAbs else m / Nat.pow 2 e.natAbs
    some (if negative then -(n : Int) else n)
  | _ => none

/-- Whether a number is zero or less; a `nan` is not. -/
def atMostZero : Binary64 → Bool
  | .finite negative m _ => negative || m == 0
  | .infinite negative => negative
  | .nan => false

/-- Equality of numbers as parts of trees: zeros are equal, and so are `nan`s, since a tree is equal
to itself whatever it holds. -/
def same : Binary64 → Binary64 → Bool
  | .finite n m e, .finite n' m' e' => (m == 0 && m' == 0) || (n == n' && m == m' && e == e')
  | .infinite n, .infinite n' => n == n'
  | .nan, .nan => true
  | _, _ => false

theorem same_self (x : Binary64) : x.same x = true := by
  cases x <;> simp [same]

end Binary64

end CommitChain
