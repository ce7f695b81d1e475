import CommitChain.Hash.Sha256

/-!
# Base 32

Bytes as digits of five bits in the alphabet `a`–`z`, `2`–`7`, without padding.  The bits of a last,
partial digit are filled up with zeros.
-/

namespace CommitChain.Hash.Base32

/-- The digit of a number below 32. -/
def digit (n : Nat) : Char :=
  if n < 26 then Char.ofNat ('a'.toNat + n) else Char.ofNat ('2'.toNat + (n - 26))

/-- Whether `c` is a digit. -/
def isDigit (c : Char) : Bool :=
  ('a' ≤ c && c ≤ 'z') || ('2' ≤ c && c ≤ '7')

/-- The digits of the eight bits of each byte behind `count` pending bits of value `pending`. -/
def encodeFrom (pending count : Nat) : List UInt8 → List Char
  | [] => if count = 0 then [] else [digit (pending * Nat.pow 2 (5 - count) % 32)]
  | b :: bs =>
    let bits := pending * 256 + b.toNat
    let width := count + 8
    if 10 ≤ width then
      digit (bits / Nat.pow 2 (width - 5) % 32) :: digit (bits / Nat.pow 2 (width - 10) % 32)
        :: encodeFrom (bits % Nat.pow 2 (width - 10)) (width - 10) bs
    else
      digit (bits / Nat.pow 2 (width - 5) % 32)
        :: encodeFrom (bits % Nat.pow 2 (width - 5)) (width - 5) bs

/-- The digits of a byte string. -/
def encode (bytes : ByteArray) : String :=
  String.ofList (encodeFrom 0 0 bytes.toList)

end CommitChain.Hash.Base32
