import CommitChain.Proofs.Proof.HashFold

/-!
# Verifying what was proved

The bytes of a proof hold the claim in canonical form, and a verifier compares that with the claim
it is asked about.  So a proof is accepted for the claim that it was made for exactly if the
encodings of that claim are in normal form, and always for the settled claim (`verify_of_prove`).
-/

namespace CommitChain

open CommitChain.Text

/-- A settled claim does not change when it is settled. -/
theorem Claim.Valid.settled_settled {c : Claim} (h : c.Valid) : c.settled.settled = c.settled := by
  rw [Claim.settled, Claim.settled, h.input.settled.canonicalForm_eq,
    h.output.settled.canonicalForm_eq]

namespace HashFold

variable {b b' : HashFold} {c : Claim} {t : Trace} {a : ProofArtifact} {bytes : ByteArray}

/-- What is made for a claim fits the settled claim. -/
theorem Made.fits_settled (h : b.Made c t a) (hc : c.Valid) (hf : b'.folding = b.folding) :
    b'.Fits c.settled a.settled := by
  obtain ⟨params, hparams, hdigest⟩ := h.params
  obtain ⟨hportions, hframes, digest, hclaim, hseal⟩ := sealOf_eq_ok.1 h.sealed
  have hsame : a.settled.claim.same c.settled = true := by
    have hnormal := hc.settled.settled_same_iff.2
      ⟨hc.input.settled.normal, hc.output.settled.normal⟩
    rw [hc.settled_settled] at hnormal
    exact (congrArg Claim.settled h.claim).symm ▸ hnormal
  have hdigest' : c.settled.digest = .ok digest := by
    obtain ⟨d, hd, hd'⟩ := Json.exists_common_digest hc.settled.exists_canonical
      hc.exists_canonical hc.toJson_settled Hash.claimDomain
    exact hd.trans (hd'.symm.trans hclaim)
  exact {
    format := h.format, version := h.version, backend := h.backend
    params := ⟨params, by rw [HashFold.params, hf]; exact hparams, hdigest⟩
    same := hsame
    start := hc.start_settled h.accepted.start
    sealed := sealOf_eq_ok.2 ⟨hportions, hframes, digest, hdigest', hseal⟩ }

/-- Under the folding that it was made with, a proof is accepted for its claim if the encodings of
the claim are in normal form, and rejected if they are not; it is always accepted for the settled
claim. -/
theorem verify_of_prove (hc : c.Valid) (hf : b'.folding = b.folding)
    (h : b.prove c t = .ok bytes) :
    (c.input.Normal ∧ c.output.Normal → b'.verify c bytes = .ok .accepted) ∧
    (¬(c.input.Normal ∧ c.output.Normal) → b'.verify c bytes
      = .ok (.rejected .claimMismatch "Proof does not prove this claim")) ∧
    b'.verify c.settled bytes = .ok .accepted := by
  obtain ⟨a, hmade, hbytes⟩ := prove_eq_ok_iff.1 h
  have hverify := verify_of_made hc hmade hbytes hf
  refine ⟨fun hn => ?_, fun hn => ?_, ?_⟩
  · rw [hverify, if_pos (hc.settled_same_iff.2 hn)]
  · rw [hverify, if_neg fun hsame => hn (hc.settled_same_iff.1 hsame)]
  · exact verify_eq_accepted_iff.2
      ⟨a.settled, (hmade.valid hc).ofBytes hbytes, hmade.fits_settled hc hf⟩

theorem normal_str {s : String} (h : IsNormal s) : (Json.arr [.str "str", .str s]).Normal := by
  refine .arr ?_
  simp only [List.forall_mem_cons, List.not_mem_nil, false_imp_iff, implies_true, and_true]
  exact ⟨.str (by decide), .str h⟩

/-- A proof of a claim about a syllable is accepted for the claim. -/
theorem verify_of_prove_syllable : ∃ (b : HashFold) (c : Claim) (t : Trace) (bytes : ByteArray),
    c.Valid ∧ c.input = .arr [.str "str", .str "\uac00"] ∧ b.prove c t = .ok bytes ∧
      b.verify c bytes = .ok .accepted := by
  obtain ⟨c, z, w, result, hc, hinput, houtput, hproved⟩ := exists_proved (encodes_str "\uac00")
  obtain ⟨bytes, h⟩ := hproved z
  have hsyllable : IsNormal "\uac00" := normalize_letters ▸ isNormal_normalize _
  refine ⟨{}, c, _, bytes, hc, hinput, h, (verify_of_prove hc rfl h).1 ⟨?_, ?_⟩⟩
  · exact hinput ▸ normal_str hsyllable
  · exact houtput ▸ normal_str (by decide)

/-- A proof of a claim about the two letters of that syllable is rejected for the claim. -/
theorem not_verify_of_prove : ¬∀ (b : HashFold) (c : Claim) (t : Trace) (bytes : ByteArray),
    c.Valid → b.prove c t = .ok bytes → b.verify c bytes = .ok .accepted := by
  intro hall
  obtain ⟨c, z, w, result, hc, hinput, houtput, hproved⟩ :=
    exists_proved (encodes_str "\u1100\u1161")
  obtain ⟨bytes, h⟩ := hproved z
  have hnormal : ¬(c.input.Normal ∧ c.output.Normal) := by
    rintro ⟨hn, _⟩
    rw [hinput] at hn
    cases hn with
    | arr hn =>
      cases hn (.str "\u1100\u1161") (by simp) with
      | str hs => exact absurd (normalize_letters.symm.trans hs) (by decide)
  obtain ⟨a, hmade, hbytes⟩ := prove_eq_ok_iff.1 h
  have hverify := verify_of_made hc hmade hbytes (rfl : ({} : HashFold).folding = _)
  rw [if_neg fun hsame => hnormal (hc.settled_same_iff.1 hsame), hall {} c _ bytes hc h] at hverify
  exact absurd hverify (by simp)

end HashFold

end CommitChain
