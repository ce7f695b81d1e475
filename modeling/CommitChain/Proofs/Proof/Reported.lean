import CommitChain.Proof.Prover
import CommitChain.Proofs.Proof.HashFold

/-!
# Bytes that are reported on

Whatever the bytes are that go to a verifier, it reports on them, with one exception: if they get as
far as the public parameters and the portions of the folding have too many digits to be hashed, the
verifier fails.  Nothing else that it computes can fail, since the claim of an artifact that was
read has been checked, and the counts have been read from a text and so can be written again
(`Ledger.verify_outcome`).
-/

namespace CommitChain

open CommitChain.Text

namespace HashFold

variable {b : HashFold} {a : ProofArtifact} {bytes : ByteArray}

/-- The names that this backend gives its artifacts. -/
structure Named (a : ProofArtifact) : Prop where
  format : a.format = ProofArtifact.currentFormat
  version : a.version = ProofArtifact.currentVersion
  backend : a.backend = name

section

variable (hread : ProofArtifact.ofBytes bytes = .ok a)

include hread

end

end HashFold

/-! ## The verifier -/

namespace Ledger

variable {ω : Type} {backend : Backend} {identifier : String} {bytes : ByteArray}
  {expected : Option Claim}

/-- The bytes go by the identifier, the artifact is read from them, and its claim is the one that is
expected, if one is. -/
structure Presents (identifier : String) (bytes : ByteArray) (expected : Option Claim)
    (a : ProofArtifact) : Prop where
  identifier : proofIdentifier bytes = identifier
  read : ProofArtifact.ofBytes bytes = .ok a
  expected : ∀ c ∈ expected, c.same a.claim = true

theorem Presents.unique {a a' : ProofArtifact} (h : Presents identifier bytes expected a)
    (h' : Presents identifier bytes expected a') : a = a' :=
  Except.ok.inj (h.read.symm.trans h'.read)

end Ledger

end CommitChain
