import CommitChain.Hash.Sha256
import CommitChain.Text.Hex

/-!
# Digests as text, and tagged digests

A digest is written as 64 lowercase hexadecimal digits.  `framed` is what a tagged digest hashes:
the domain, a zero byte, and each part behind its length in eight bytes, so neither the domain nor
the cuts between the parts can be mistaken.
-/

namespace CommitChain.Hash

open CommitChain.Text

namespace Digest

/-- The 64 digits of a digest. -/
def hex (d : Digest) : String :=
  Hex.encode d.bytes

/-- The digest that exactly 64 lowercase digits write. -/
def ofHex? (s : String) : Option Digest :=
  match Hex.decode? s with
  | some bytes => if h : bytes.size = 32 then some ⟨bytes, h⟩ else none
  | none => none

/-- The digest made of 32 bytes. -/
def ofBytes? (bytes : ByteArray) : Option Digest :=
  if h : bytes.size = 32 then some ⟨bytes, h⟩ else none

end Digest

/-- The bytes of a tagged digest: domain, zero byte, and the parts behind their lengths. -/
def framed (domain : String) (parts : List ByteArray) : ByteArray :=
  parts.foldl (fun acc p => acc ++ (Sha256.bigEndian 8 p.size).toByteArray ++ p)
    (domain.toUTF8.push 0)

/-- The digest of parts under a domain. -/
def taggedDigest (domain : String) (parts : List ByteArray) : Digest :=
  sha256 (framed domain parts)

/-! ## The domains -/

def commitDomain : String := "chainproof.commit.v1"
def stateDomain : String := "chainproof.state.v1"
def claimDomain : String := "chainproof.claim.v1"
def foldDomain : String := "chainproof.fold.v1"
def sealDomain : String := "chainproof.seal.v1"
def paramsDomain : String := "chainproof.params.v1"

end CommitChain.Hash
