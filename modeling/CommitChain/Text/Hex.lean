/-!
# Hexadecimal text of bytes

`Hex.encode` writes two lowercase digits a byte and `Hex.decode?` reads exactly that back.
-/

namespace CommitChain.Text.Hex

/-- The digit of a number below sixteen. -/
def digit (n : Nat) : Char :=
  n.digitChar

/-- The value of a lowercase digit. -/
def value? (c : Char) : Option Nat :=
  if '0' ≤ c ∧ c ≤ '9' then some (c.toNat - 48)
  else if 'a' ≤ c ∧ c ≤ 'f' then some (c.toNat - 87)
  else none

/-- Whether `c` is a lowercase hexadecimal digit. -/
def isDigit (c : Char) : Bool :=
  (value? c).isSome

/-- Two digits a byte, the upper one first. -/
def encodeList : List UInt8 → List Char
  | [] => []
  | b :: bs => digit (b.toNat / 16) :: digit (b.toNat % 16) :: encodeList bs

/-- The bytes that pairs of digits stand for. -/
def decodeList? : List Char → Option (List UInt8)
  | [] => some []
  | [_] => none
  | a :: b :: cs =>
    match value? a, value? b, decodeList? cs with
    | some x, some y, some bs => some (UInt8.ofNat (16 * x + y) :: bs)
    | _, _, _ => none

/-- The text of a byte string. -/
def encode (bytes : ByteArray) : String :=
  String.ofList (encodeList bytes.toList)

/-- The bytes of a text of lowercase digits. -/
def decode? (s : String) : Option ByteArray :=
  (decodeList? s.toList).map List.toByteArray

theorem value?_digit : ∀ n < 16, value? (digit n) = some n := by decide

theorem decodeList?_encodeList (bs : List UInt8) : decodeList? (encodeList bs) = some bs := by
  induction bs with
  | nil => rfl
  | cons b bs ih =>
    have hb : b.toNat < 256 := b.toNat_lt
    have h : 16 * (b.toNat / 16) + b.toNat % 16 = b.toNat := by omega
    simp [encodeList, decodeList?, value?_digit _ (show b.toNat / 16 < 16 by omega),
      value?_digit _ (show b.toNat % 16 < 16 by omega), ih, h]

theorem length_encodeList (bs : List UInt8) : (encodeList bs).length = 2 * bs.length := by
  induction bs with
  | nil => rfl
  | cons b bs ih => simp only [encodeList, List.length_cons, ih]; omega

end CommitChain.Text.Hex
