import CommitChain.Hash.Base32
import CommitChain.Hash.Digest
import CommitChain.Text.Blank

/-!
# Content addresses

A commitment is a digest, written `0x` and 64 hexadecimal digits.  A proof identifier is `cp_` and
the 52 digits of the SHA-256 digest of the proof's bytes in base 32.  The two forms never coincide.

Texts are checked as files and messages hold them: with one newline at the end or none.
-/

namespace CommitChain

open CommitChain.Hash CommitChain.Text

/-- The text without one newline at its end. -/
def withoutNewline (cs : List Char) : List Char :=
  if cs.getLast? = some '\n' then cs.dropLast else cs

/-- What a value is known by: the digest of its encoding. -/
abbrev Commitment := Digest

namespace Commitment

def text (c : Commitment) : String :=
  "0x" ++ c.hex

/-- The digits behind `0x`. -/
def digits? : List Char → Option (List Char)
  | '0' :: 'x' :: ds => if ds.length = 64 ∧ ds.all Hex.isDigit then some ds else none
  | _ => none

/-- Whether a text has the form of a commitment. -/
def isText (s : String) : Bool :=
  (digits? (withoutNewline s.toList)).isSome

/-- What is read as a commitment: blanks around it do not count, and neither does case. -/
def standardized (s : String) : List Char :=
  (trim isBlank s.toList).map Char.toLower

/-- The commitment that a text writes. -/
def ofText? (s : String) : Option Commitment :=
  (digits? (standardized s)).bind fun ds => Digest.ofHex? (String.ofList ds)

end Commitment

/-- What a proof is known by. -/
def proofIdentifier (artifact : ByteArray) : String :=
  "cp_" ++ Base32.encode (sha256 artifact).bytes

/-- Whether characters are `cp_` and 52 digits. -/
def isIdentifier : List Char → Bool
  | 'c' :: 'p' :: '_' :: ds => ds.length = 52 && ds.all Base32.isDigit
  | _ => false

/-- Whether a text has the form of a proof identifier. -/
def isProofIdentifier (s : String) : Bool :=
  isIdentifier (withoutNewline s.toList)

end CommitChain
