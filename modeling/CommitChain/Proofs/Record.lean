import CommitChain.Proofs.Record.Valid

/-!
# Claims as a chain writes them

A claim is *proper* if it is written the way a chain writes its own: with the texts of two
commitments, and with settled encodings that can be decoded and hashed.  A proper claim is valid and
settled, so its canonical form passes the check and gives the claim back.
-/

namespace CommitChain

structure Claim.Proper (c : Claim) : Prop where
  prior : ∃ head : Commitment, c.prior = head.text
  newHead : ∃ head : Commitment, c.newHead = head.text
  input : c.input.Settled
  input_ok : encodingProblem? c.input = none
  output : c.output.Settled
  output_ok : encodingProblem? c.output = none

namespace Claim.Proper

variable {c : Claim}

theorem valid (h : c.Proper) : c.Valid where
  prior := by
    obtain ⟨head, hhead⟩ := h.prior
    exact hhead ▸ head.isText_text
  newHead := by
    obtain ⟨head, hhead⟩ := h.newHead
    exact hhead ▸ head.isText_text
  input := ⟨h.input.wellFormed, h.input_ok⟩
  output := ⟨h.output.wellFormed, h.output_ok⟩

theorem settled_eq (h : c.Proper) : c.settled = c := by
  rw [settled, h.input.canonicalForm_eq, h.output.canonicalForm_eq]

theorem checkMembers (h : c.Proper) {members : List (String × Json)}
    (hn : Json.Distinct (members.map Prod.fst)) (path : List String)
    (hprior : Keyed.find? "prior" members = some (.str c.prior))
    (hinput : Keyed.find? "input" members = some c.input)
    (houtput : Keyed.find? "output" members = some c.output)
    (hnew : Keyed.find? "new_head" members = some (.str c.newHead)) :
    Claim.checkMembers (Json.canonicalObject members) path = .good c := by
  rw [h.valid.checkMembers hn path hprior hinput houtput hnew, h.settled_eq]

theorem same_self (h : c.Proper) : c.same c = true :=
  h.valid.same_self

end Claim.Proper

end CommitChain
