import CommitChain.Number.Binary64

/-!
# The shortest decimal text of a number

`shortest?` gives the fewest digits that read back as the same number, and of those the ones nearest
to it.  It tries the grids of one digit, two digits and so on: if a point of a grid lies in the
interval that rounds to the number, so does one of the two neighbours of the number on that grid.

`text` writes the digits with a point from `0.0001` up to sixteen digits in front of it, and with an
exponent of at least two digits beyond.
-/

namespace CommitChain.Binary64

/-- The interval that rounds to `m * 2 ^ e`, as lower end, upper end and their common scale
`2 ^ (e - 2)`, with the ends included or not. -/
def interval (m : Nat) (e : Int) : Nat × Nat × Bool :=
  let lower := if m = Nat.pow 2 52 ∧ minExponent < e then 4 * m - 1 else 4 * m - 2
  (lower, 4 * m + 2, m % 2 = 0)

/-- Whether `n / d` rounds to `m * 2 ^ e`. -/
def roundsTo (m : Nat) (e : Int) (n d : Nat) : Bool :=
  let (lower, upper, closed) := interval m e
  let (n, d) := scaled n d (e - 2)
  if closed then lower * d ≤ n && n ≤ upper * d else lower * d < n && n < upper * d

/-- `n * 10 ^ k` as a quotient. -/
def timesPowerOfTen (n : Nat) (k : Int) : Nat × Nat :=
  if k < 0 then (n, Nat.pow 10 k.natAbs) else (n * Nat.pow 10 k.natAbs, 1)

/-- The first `k` from `start` on with `num / den < 10 ^ k`. -/
def pointFrom (num den : Nat) (start : Int) : Nat → Int
  | 0 => start
  | n + 1 =>
    let (p, q) := timesPowerOfTen 1 start
    if num * q < p * den then start else pointFrom num den (start + 1) n

/-- The `k` with `10 ^ (k - 1) ≤ num / den < 10 ^ k`. -/
def pointOf (num den : Nat) : Int :=
  pointFrom num den (((num.log2 : Int) - den.log2 - 1) * 30103 / 100000 - 1) 8

/-- Of the neighbours of `num / den = m * 2 ^ e` on the grid of `10 ^ k`, the nearer one that rounds
to it. -/
def onGrid? (m : Nat) (e : Int) (num den : Nat) (k : Int) : Option Nat :=
  let (p, q) := timesPowerOfTen 1 k
  let low := num * q / (den * p)
  let hits n := roundsTo m e (n * p) q
  if hits low && hits (low + 1) then
    -- twice the number lies below the sum of the two neighbours
    if 2 * num * q < (2 * low + 1) * (den * p) then some low
    else if 2 * num * q = (2 * low + 1) * (den * p) then some (low + low % 2)
    else some (low + 1)
  else if hits low then some low
  else if hits (low + 1) then some (low + 1)
  else none

/-- Tries the grids from `17 - n + 1` digits on. -/
def shortestFrom (m : Nat) (e : Int) (num den : Nat) (point : Int) : Nat → Nat × Int
  | 0 => (m, e)
  | n + 1 =>
    let k := point - (17 - n : Nat)
    match onGrid? m e num den k with
    | some digits => (digits, k)
    | none => shortestFrom m e num den point n

/-- The shortest digits and the power of ten of the last one. -/
def shortest (m : Nat) (e : Int) : Nat × Int :=
  let (num, den) := if e < 0 then (m, Nat.pow 2 e.natAbs) else (m * Nat.pow 2 e.natAbs, 1)
  shortestFrom m e num den (pointOf num den) 17

/-- The digits without zeros at the end. -/
def significant (digits : List Char) : List Char :=
  (digits.reverse.dropWhile (· = '0')).reverse

/-- Digits whose point stands behind the first `point` of them. -/
def positional (digits : List Char) (point : Int) : String :=
  if point ≤ 0 then "0." ++ String.ofList (List.replicate point.natAbs '0' ++ digits)
  else if digits.length ≤ point.natAbs then
    String.ofList (digits ++ List.replicate (point.natAbs - digits.length) '0') ++ ".0"
  else
    String.ofList (digits.take point.natAbs) ++ "." ++ String.ofList (digits.drop point.natAbs)

/-- Digits with the point behind the first one and an exponent. -/
def scientific (digits : List Char) (point : Int) : String :=
  let x := point - 1
  let fraction := digits.drop 1
  let size := x.natAbs.repr
  String.ofList (digits.take 1)
    ++ (if fraction.isEmpty then "" else "." ++ String.ofList fraction)
    ++ (if x < 0 then "e-" else "e+")
    ++ (if x.natAbs < 10 then "0" ++ size else size)

/-- The text of a number. -/
def text : Binary64 → String
  | .nan => "nan"
  | .infinite negative => if negative then "-inf" else "inf"
  | .finite negative 0 _ => if negative then "-0.0" else "0.0"
  | .finite negative m e =>
    let (digits, k) := shortest m e
    let all := Nat.toDigits 10 digits
    let point : Int := all.length + k
    let body := if -4 < point ∧ point ≤ 16 then positional (significant all) point
      else scientific (significant all) point
    if negative then "-" ++ body else body

end CommitChain.Binary64
