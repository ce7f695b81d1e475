import CommitChain.Proofs.Hash.Framed
import CommitChain.Proofs.Proof.Verified

/-!
# What a seal binds

Artifacts that are accepted and have one seal have the same canonical bytes, unless two different
byte strings that are hashed for their claims or their seals have one digest
(`seal_binds_artifact`).
-/

namespace CommitChain

open CommitChain.Hash CommitChain.Text

namespace HashFold

/-! ## The parts of a seal -/

theorem short_of_size_le {part : ByteArray} (h : part.size ≤ digitLimit) : Short part :=
  Nat.lt_of_le_of_lt h (by decide)

theorem short_hexBytes (d : Digest) : Short (hexBytes d) :=
  short_of_size_le (size_hexBytes d ▸ by decide)

theorem short_bytes (d : Digest) : Short d.bytes :=
  short_of_size_le (d.size_eq ▸ by decide)

theorem short_integerDigits {n : Nat} (h : n < integerBound) : Short (integerDigits n).toUTF8 := by
  refine short_of_size_le ?_
  rw [integerDigits_natCast, size_toUTF8 fun c => toNat_lt_of_mem_repr, Nat.toList_repr]
  exact length_toDigits_le_digitLimit.2 h

theorem integerDigits_inj {m n : Nat}
    (h : (integerDigits m).toUTF8 = (integerDigits n).toUTF8) : m = n := by
  have htext := congrArg String.toList (String.toByteArray_inj.1 h)
  rw [integerDigits_natCast, integerDigits_natCast, Nat.toList_repr, Nat.toList_repr] at htext
  rw [← natOfDigits_toDigits m, htext, natOfDigits_toDigits]

theorem short_sealedParts {params claim z0 zi acc : Digest} {portions frames : Nat}
    (hp : portions < integerBound) (hf : frames < integerBound) :
    ∀ part ∈ (sealedParts params claim z0 zi portions frames acc).dropLast, Short part := by
  refine fun part hm => ?_
  have hparts : ∀ part ∈ sealedParts params claim z0 zi portions frames acc, Short part := by
    simp only [sealedParts, List.forall_mem_cons, List.not_mem_nil, false_imp_iff, implies_true,
      and_true]
    exact ⟨short_hexBytes _, short_bytes _, short_hexBytes _, short_hexBytes _,
      short_integerDigits hp, short_integerDigits hf, short_hexBytes _⟩
  exact hparts part (List.dropLast_subset _ hm)

/-! ## What is hashed for a seal -/

/-- The byte strings that are hashed for the seal of an artifact over a claim. -/
inductive Sealing (c : Claim) (a : ProofArtifact) : ByteArray → Prop
  | claim {m : ByteArray} (h : Json.Hashed claimDomain c.toJson m) : Sealing c a m
  | artifact {digest : Digest} (h : c.digest = .ok digest) : Sealing c a (framed sealDomain
      (sealedParts a.params digest a.z0 a.zi a.portionCount a.frameCount a.accumulator))

/-- For a settled claim the same bytes are hashed. -/
theorem Sealing.of_settled {c : Claim} {a : ProofArtifact} {m : ByteArray} (hc : c.Valid)
    (h : Sealing c.settled a m) : Sealing c a m := by
  obtain ⟨text, hsettled, htext⟩ :=
    Json.exists_common_canonical hc.settled.exists_canonical hc.exists_canonical hc.toJson_settled
  cases h with
  | claim h =>
    obtain ⟨text', htext', rfl⟩ := h
    rw [hsettled] at htext'
    cases htext'
    exact .claim ⟨text, htext, rfl⟩
  | artifact h =>
    have hdigest := Json.digest_of_canonical hsettled claimDomain
    have hdigest' := Json.digest_of_canonical htext claimDomain
    exact .artifact (hdigest'.trans (hdigest.symm.trans h))

/-- The parts of an artifact that its seal covers, apart from the claim. -/
def SameParts (a a' : ProofArtifact) : Prop :=
  a.params = a'.params ∧ a.z0 = a'.z0 ∧ a.zi = a'.zi ∧ a.portionCount = a'.portionCount ∧
    a.frameCount = a'.frameCount ∧ a.accumulator = a'.accumulator

variable {b b' : HashFold} {c d : Claim} {a a' : ProofArtifact}
  {bytes bytes' : ByteArray}

/-- Whether the seal of an artifact is over a claim. -/
def IsSealed (c : Claim) (a : ProofArtifact) : Prop :=
  sealOf a.params c a.z0 a.zi a.portionCount a.frameCount a.accumulator = .ok a.sealDigest

/-- Artifacts with one seal have the same parts and the same claim, unless what is hashed for their
seals collides. -/
theorem eq_or_collide_of_seal (hc : c.Valid) (hd : d.Valid) (h : IsSealed c a)
    (h' : IsSealed d a') (hs : a.sealDigest = a'.sealDigest) :
    SameParts a a' ∧ c.settled = d.settled ∨ Collide (Sealing c a) (Sealing d a') := by
  obtain ⟨hp, hf, digest, hdigest, hseal⟩ := sealOf_eq_ok.1 h
  obtain ⟨hp', hf', digest', hdigest', hseal'⟩ := sealOf_eq_ok.1 h'
  rcases eq_or_collide (Sealing.artifact hdigest) (Sealing.artifact hdigest')
    (hseal.trans (hs.trans hseal'.symm)) with heq | hcollide
  swap
  · exact .inr hcollide
  have hparts := framed_inj (by rfl) (short_sealedParts hp hf) (short_sealedParts hp' hf') heq
  simp only [sealedParts, List.cons.injEq, and_true] at hparts
  obtain ⟨hparams, hclaim, hz, hw, hportions, hframes, hacc⟩ := hparts
  obtain rfl : digest = digest' := Digest.ext hclaim
  refine (Json.canonicalForm_eq_or_collide hdigest hdigest').imp (fun hform => ⟨?_, ?_⟩)
    fun hcollide => hcollide.mono (fun _ => .claim) fun _ => .claim
  · exact ⟨hexBytes_inj hparams, hexBytes_inj hz, hexBytes_inj hw, integerDigits_inj hportions,
      integerDigits_inj hframes, hexBytes_inj hacc⟩
  · exact (Claim.settled_eq_iff hc hd).2 hform

/-! ## Artifacts that are accepted -/

/-- An artifact that was read from bytes and fits a claim is valid. -/
theorem Fits.valid (h : b.Fits c a) (ha : ProofArtifact.ofBytes bytes = .ok a) : a.Valid := by
  obtain ⟨hclaim, hportions, hframes⟩ := ProofArtifact.valid_of_ofBytes ha
  exact valid_of_sealed h.format h.version h.backend hclaim hportions hframes h.sealed

/-- Whether artifacts have the same content, up to the normal form of the encodings in their claims,
and so the same canonical bytes. -/
def SameContent (a a' : ProofArtifact) : Prop :=
  a.settled = a'.settled ∧ ∃ bytes, a.toBytes = .ok bytes ∧ a'.toBytes = .ok bytes

/-- Artifacts that fit claims and have one seal have the same content, unless what is hashed for
their seals collides. -/
theorem Fits.same_or_collide (h : b.Fits c a) (h' : b'.Fits d a')
    (ha : ProofArtifact.ofBytes bytes = .ok a) (ha' : ProofArtifact.ofBytes bytes' = .ok a')
    (hc : c.Valid) (hd : d.Valid) (hs : a.sealDigest = a'.sealDigest) :
    SameContent a a' ∨ Collide (Sealing c a) (Sealing d a') := by
  have hvalid := h.valid ha
  have hvalid' := h'.valid ha'
  refine (eq_or_collide_of_seal hc hd h.sealed h'.sealed hs).imp_left ?_
  rintro ⟨⟨hparams, hz, hw, hportions, hframes, hacc⟩, hclaim⟩
  have hsettled : a.claim.settled = a'.claim.settled := by
    rw [Claim.settled_eq_of_same hvalid.claim hc h.same, hclaim,
      Claim.settled_eq_of_same hvalid'.claim hd h'.same]
  have heq : a.settled = a'.settled := by
    simp only [ProofArtifact.settled, h.format, h'.format, h.version, h'.version, h.backend,
      h'.backend, hparams, hz, hw, hportions, hframes, hacc, hs, hsettled]
  obtain ⟨text, htext⟩ := hvalid.exists_toBytes
  refine ⟨heq, text, htext, ?_⟩
  rw [← hvalid'.toBytes_settled, ← heq, hvalid.toBytes_settled, htext]

theorem fits_of_verify (ha : ProofArtifact.ofBytes bytes = .ok a)
    (hv : b.verify c bytes = .ok .accepted) : b.Fits c a := by
  obtain ⟨_, hread, hfits⟩ := verify_eq_accepted_iff.1 hv
  rw [ha] at hread
  cases hread
  exact hfits

/-- A seal binds the whole artifact.  Of two artifacts with one seal, if both are accepted they have
the same content; and if one of them was made for a claim and the other has different canonical
bytes, that other one is not accepted.  Otherwise two different byte strings that are hashed for the
seals have one digest. -/
theorem seal_binds_artifact (hc : c.Valid) (hd : d.Valid)
    (ha : ProofArtifact.ofBytes bytes = .ok a) (ha' : ProofArtifact.ofBytes bytes' = .ok a')
    (hs : a.sealDigest = a'.sealDigest) :
    ((b.verify c bytes = .ok .accepted → b'.verify d bytes' = .ok .accepted → SameContent a a') ∧
      ∀ t, b.prove c t = .ok bytes → a.toBytes ≠ a'.toBytes → b'.verify d bytes' ≠ .ok .accepted) ∨
    Collide (Sealing c a) (Sealing d a') := by
  by_cases hcollide : Collide (Sealing c a) (Sealing d a')
  · exact .inr hcollide
  refine .inl ⟨fun hv hv' => ?_, fun t hprove hne hv' => hne ?_⟩
  · exact ((fits_of_verify ha hv).same_or_collide (fits_of_verify ha' hv') ha ha' hc hd
      hs).resolve_right hcollide
  · obtain ⟨made, hmade, hbytes⟩ := prove_eq_ok_iff.1 hprove
    have hread := (hmade.valid hc).ofBytes hbytes
    rw [ha] at hread
    cases hread
    have hfits := hmade.fits_settled hc (rfl : b.folding = b.folding)
    obtain ⟨_, text, htext, htext'⟩ := (hfits.same_or_collide (fits_of_verify ha' hv') ha ha'
      hc.settled hd hs).resolve_right fun h =>
        hcollide (h.mono (fun _ => Sealing.of_settled hc) fun _ h => h)
    exact htext.trans htext'.symm

/-- The bytes of a proof with a newline behind them are a proof with the same seal and content. -/
theorem seal_binds_artifact_before_newline : ∃ (b : HashFold) (c : Claim) (bytes bytes' : ByteArray)
    (a a' : ProofArtifact), c.Valid ∧ bytes ≠ bytes' ∧ ProofArtifact.ofBytes bytes = .ok a ∧
      ProofArtifact.ofBytes bytes' = .ok a' ∧ a.sealDigest = a'.sealDigest ∧
      b.verify c bytes = .ok .accepted ∧ b.verify c bytes' = .ok .accepted ∧
      (SameContent a a' ∨ Collide (Sealing c a) (Sealing c a')) := by
  obtain ⟨c, z, w, result, hc, _, _, hproved⟩ := exists_proved (encodes_str "\u1100\u1161")
  obtain ⟨bytes, hprove⟩ := hproved z
  obtain ⟨a, hmade, hbytes⟩ := prove_eq_ok_iff.1 hprove
  obtain ⟨text, htext, rfl⟩ := map_eq_ok.1 hbytes
  have hread := (hmade.valid hc).ofBytes hbytes
  have hread' := (hmade.valid hc).ofBytes_append htext
    (show ("\n" : String).toList.all Json.isLayout = true by decide)
  have hfits := hmade.fits_settled hc (rfl : ({} : HashFold).folding = _)
  have hv := verify_eq_accepted_iff.2 ⟨_, hread, hfits⟩
  have hv' := verify_eq_accepted_iff.2 ⟨_, hread', hfits⟩
  refine ⟨{}, c.settled, _, _, _, _, hc.settled, fun heq => ?_, hread, hread', rfl, hv, hv', ?_⟩
  · have hlength := congrArg (fun s => s.toList.length) (String.toByteArray_inj.1 heq)
    simp at hlength
  · exact (seal_binds_artifact hc.settled hc.settled hread hread' rfl).imp_left
      fun h => h.1 hv hv'

end HashFold

end CommitChain
