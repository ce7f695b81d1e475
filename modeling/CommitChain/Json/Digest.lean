import CommitChain.Hash.Digest
import CommitChain.Json.Canonical

/-!
# Digests of trees

A tree is hashed as the UTF-8 bytes of its canonical text, under a domain.
-/

namespace CommitChain.Json

/-- The bytes of the canonical text. -/
def canonicalBytes (x : Json) : Except CanonicalFault ByteArray :=
  x.canonical.map String.toUTF8

/-- The digest of a tree under a domain. -/
def digest (domain : String) (x : Json) : Except CanonicalFault Hash.Digest :=
  x.canonicalBytes.map fun bytes => Hash.taggedDigest domain [bytes]

end CommitChain.Json
