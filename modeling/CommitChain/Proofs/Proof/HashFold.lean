import CommitChain.Proofs.Chain.Evaluated
import CommitChain.Proofs.Proof.Accepted
import CommitChain.Proofs.Proof.Artifact
import CommitChain.Proofs.Proof.Folding

/-!
# Proving and verifying by hashes

What an artifact shows that was made for a claim (`Made`), and when the bytes of a proof are
accepted (`verify_eq_accepted_iff`).  A trace that is accepted for a claim and whose frames have
circuits has an artifact under every folding whose portions can be written in decimal
(`exists_artifact`), and the proof of a record of an evaluated step is accepted for its claim
(`exists_proof`).
-/

namespace CommitChain

open CommitChain.Hash CommitChain.Text

/-! ## Digests that are hashed as text -/

theorem HashFold.size_hexBytes (d : Digest) : (hexBytes d).size = 64 := by
  rw [hexBytes, size_toUTF8, d.length_hex]
  exact fun c hc => Hex.toNat_lt_of_isDigit (Digest.isDigit_of_mem_hex c hc)

theorem HashFold.hexBytes_inj {d e : Digest} (h : hexBytes d = hexBytes e) : d = e :=
  Digest.hex_inj.1 (String.toByteArray_inj.1 h)

/-! ## Trees that are hashed -/

theorem Portion.plain_toJson {p : Portion} (hc : p.circuit ≤ Family.special.length)
    (hn : p.next ≤ Family.special.length) : p.toJson.Plain := by
  have hsmall : Family.special.length < 10 := by decide
  refine Json.plain_obj ?_
  simp only [List.forall_mem_cons, List.not_mem_nil, false_imp_iff, implies_true, and_true]
  refine ⟨plain_natCast (lt_integerBound (by omega)), plain_natCast (lt_integerBound (by omega)),
    Json.plain_arr (List.forall_mem_map.2 fun f _ => Json.plain_arr ?_)⟩
  simp only [List.forall_mem_cons, List.not_mem_nil, false_imp_iff, implies_true, and_true]
  exact ⟨Json.plain_str _, Json.plain_str _⟩

theorem lt_of_countText? {n : Nat} {text : String} (h : countText? n = some text) :
    n < integerBound := by
  rw [countText?, integerText?] at h
  split at h
  next hn => exact hn
  next => exact absurd h (by simp)

theorem Folding.circuitCount_lt (f : Folding) : f.circuitCount < 10 := by
  rw [circuitCount]
  cases f.kind <;> decide

namespace PublicParams

theorem make_eq_ok {backend : String} {f : Folding} (h : f.portion < integerBound) :
    ∃ params, make backend f = .ok params := by
  have hplain : (body backend f).Plain := by
    refine Json.plain_obj ?_
    simp only [List.forall_mem_cons, List.not_mem_nil, false_imp_iff, implies_true, and_true]
    exact ⟨Json.plain_str _, Json.plain_str _, plain_natCast h,
      plain_natCast (lt_integerBound f.circuitCount_lt)⟩
  rw [make, Json.digest, Json.canonicalBytes, hplain.canonical]
  exact ⟨_, rfl⟩

end PublicParams

/-- The trace of an evaluated record is accepted for its claim. -/
theorem StepRecord.Evaluated.accepts {b : HashFold} {r : StepRecord} (h : r.Evaluated)
    (hm : r.trace.frames.length ≤ b.maxFrames) : ∃ z w, b.Accepts r.claim r.trace z w := by
  obtain ⟨z, w, hstart, hhalt, hleads⟩ := h.leads
  obtain ⟨next, head, hresult, hfunction, hhead, hnew⟩ := h.split
  obtain ⟨_, text, htext⟩ := encodingProblem?_eq_none.1 h.claim.output_ok
  refine ⟨z, w, {
    nonempty := h.nonempty
    short := hm
    numbered := h.numbered
    leads := hleads
    start := hstart
    halt := hhalt
    result := ⟨r.claim.output, next, text, head, ?_, htext, htext, hfunction, hhead, hnew.symm⟩ }⟩
  rw [hresult, HashFold.splitEncoding]

namespace HashFold

/-! ## Accumulating -/

theorem isLinked_of_leads {z w : Digest} {fs : List Frame} (h : Leads z fs w) :
    isLinked fs = true := by
  induction fs generalizing z with
  | nil => rfl
  | cons f fs ih =>
    obtain ⟨_, h⟩ := h
    cases fs with
    | nil => rfl
    | cons g fs => rw [isLinked, decide_eq_true h.1.symm, ih h, Bool.and_self]

theorem exists_accumulateAll {ps : List Portion} (hp : ∀ p ∈ ps, p.toJson.Plain)
    (acc : Digest) {z w : Digest} (index : Nat) (h : Leads z (ps.flatMap Portion.frames) w) :
    ∃ d, accumulateAll acc z index ps = .ok d := by
  induction ps generalizing acc z index with
  | nil => exact ⟨acc, rfl⟩
  | cons p ps ih =>
    obtain ⟨hplain, hps⟩ := List.forall_mem_cons.1 hp
    rw [List.flatMap_cons] at h
    obtain ⟨m, hm, hw⟩ := leads_append.1 h
    have hinput : p.input = z := hm.1
    have houtput : p.output = m := by
      refine hm.output_getLast? _ ?_
      rw [Portion.frames, List.getLast?_cons]
      rfl
    have hnext : ∃ next, accumulate acc p = .ok next := by
      rw [accumulate, Json.canonicalBytes, hplain.canonical]
      exact ⟨_, rfl⟩
    obtain ⟨next, hnext⟩ := hnext
    obtain ⟨d, hd⟩ := ih hps next (index + 1) hw
    refine ⟨d, ?_⟩
    simp only [accumulateAll, hinput, ne_eq, not_true_eq_false, if_false, isLinked_of_leads hm,
      if_true, hnext, orFail, bind, Except.bind, houtput, hd]

/-- Frames that lead on and have circuits have portions, and these are accumulated. -/
theorem exists_accumulated {f : Folding} {frames : List Frame} {z w : Digest} (acc : Digest)
    (h : Leads z frames w) (hcircuit : ∀ frame ∈ frames, ∃ k, f.circuit frame.family = .ok k) :
    ∃ ps, f.portions frames = .ok ps ∧ ps.length ≤ frames.length ∧
      ∃ d, accumulateAll acc z 0 ps = .ok d := by
  obtain ⟨ps, hps, hlen, hcircuits, hlead⟩ := f.exists_portions hcircuit
  have hplain : ∀ p ∈ ps, p.toJson.Plain := fun p hp =>
    Portion.plain_toJson (hcircuits p hp).1 (hcircuits p hp).2
  exact ⟨ps, hps, hlen, exists_accumulateAll hplain acc 0 (hlead h)⟩

/-! ## Sealing -/

theorem countText?_eq_some {n : Nat} (h : n < integerBound) :
    countText? n = some (integerDigits n) := by
  rw [countText?, integerText?, Int.natAbs_natCast, if_pos h]

/-- The parts that are hashed for a seal over a claim with a digest. -/
def sealedParts (params claim z0 zi : Digest) (portions frames : Nat) (acc : Digest) :
    List ByteArray :=
  [hexBytes params, claim.bytes, hexBytes z0, hexBytes zi, (integerDigits portions).toUTF8,
    (integerDigits frames).toUTF8, hexBytes acc]

/-- What is sealed, and that its parts can be written. -/
theorem sealOf_eq_ok {params z0 zi acc d : Digest} {c : Claim} {portions frames : Nat} :
    sealOf params c z0 zi portions frames acc = .ok d ↔ portions < integerBound ∧
      frames < integerBound ∧ ∃ digest, c.digest = .ok digest ∧
        taggedDigest sealDomain (sealedParts params digest z0 zi portions frames acc) = d := by
  rw [sealOf, bind_eq_ok]
  constructor
  · rintro ⟨digest, hdigest, h⟩
    split at h
    next hportions hframes =>
      have hp := lt_of_countText? hportions
      have hf := lt_of_countText? hframes
      rw [countText?_eq_some hp] at hportions
      rw [countText?_eq_some hf] at hframes
      cases hportions
      cases hframes
      exact ⟨hp, hf, digest, orFail_eq_ok.1 hdigest, Except.ok.inj h⟩
    next => exact absurd h (by simp)
  · rintro ⟨hp, hf, digest, hdigest, rfl⟩
    refine ⟨digest, orFail_eq_ok.2 hdigest, ?_⟩
    rw [countText?_eq_some hp, countText?_eq_some hf]
    rfl

theorem exists_sealOf (params z0 zi acc : Digest) {c : Claim} (hc : c.Valid)
    {portions frames : Nat} (hp : portions < integerBound) (hf : frames < integerBound) :
    ∃ d, sealOf params c z0 zi portions frames acc = .ok d := by
  obtain ⟨text, htext⟩ := hc.exists_canonical
  exact ⟨_, sealOf_eq_ok.2 ⟨hp, hf, _, Json.digest_of_canonical htext claimDomain, rfl⟩⟩

/-! ## Artifacts -/

variable {b b' : HashFold} {c : Claim} {t : Trace} {a : ProofArtifact} {bytes : ByteArray}

theorem params_eq_ok (hp : b.folding.portion < integerBound) : ∃ params, b.params = .ok params :=
  PublicParams.make_eq_ok hp

/-- What an artifact shows that was made for a claim and a trace: the parameters, the frames and
their portions as they were accumulated, and the seal over all that. -/
structure Made (b : HashFold) (c : Claim) (t : Trace) (a : ProofArtifact) : Prop where
  claim : a.claim = c
  format : a.format = ProofArtifact.currentFormat
  version : a.version = ProofArtifact.currentVersion
  backend : a.backend = name
  params : ∃ params, b.params = .ok params ∧ a.params = params.digest
  accepted : b.Accepts c t a.z0 a.zi
  frameCount : a.frameCount = t.frames.length
  folded : ∃ ps, b.folding.portions t.frames = .ok ps ∧ a.portionCount = ps.length ∧
    accumulateAll (startAccumulator a.params a.z0) a.z0 0 ps = .ok a.accumulator
  sealed : sealOf a.params c a.z0 a.zi a.portionCount a.frameCount a.accumulator
    = .ok a.sealDigest

/-- An artifact is made for the claim and the trace that it is asked for. -/
theorem artifact_eq_ok_iff : b.artifact c t = .ok a ↔ b.Made c t a := by
  constructor
  · intro h
    obtain ⟨⟨z, w⟩, htrace, h⟩ := bind_eq_ok.1 h
    obtain ⟨params, hparams, h⟩ := bind_eq_ok.1 h
    obtain ⟨ps, hps, h⟩ := bind_eq_ok.1 h
    obtain ⟨acc, hacc, h⟩ := bind_eq_ok.1 h
    obtain ⟨sealed, hsealed, h⟩ := bind_eq_ok.1 h
    cases h
    exact {
      claim := rfl, format := rfl, version := rfl, backend := rfl
      params := ⟨params, orFail_eq_ok.1 hparams, rfl⟩
      accepted := checkTrace_eq_ok_iff.1 htrace
      frameCount := rfl
      folded := ⟨ps, orFail_eq_ok.1 hps, rfl, hacc⟩
      sealed := hsealed }
  · intro h
    obtain ⟨params, hparams, hdigest⟩ := h.params
    obtain ⟨ps, hps, hcount, hacc⟩ := h.folded
    have hsealed := h.sealed
    obtain ⟨format, version, backend, params', claim, portionCount, frameCount, z0, zi, acc,
      sealDigest⟩ := a
    obtain rfl := h.claim
    obtain rfl := h.format
    obtain rfl := h.version
    obtain rfl := h.backend
    obtain rfl := h.frameCount
    obtain rfl : portionCount = ps.length := hcount
    obtain rfl : params' = params.digest := hdigest
    simp only [artifact, h.accepted.checkTrace, hparams, hps, hacc, hsealed, orFail, bind,
      Except.bind]

/-- An artifact under the names of this backend that is sealed over a claim is valid if its own
claim is and it has portions and frames. -/
theorem valid_of_sealed (hformat : a.format = ProofArtifact.currentFormat)
    (hversion : a.version = ProofArtifact.currentVersion) (hbackend : a.backend = name)
    (hclaim : a.claim.Valid) (hportions : 0 < a.portionCount) (hframes : 0 < a.frameCount)
    (hsealed : sealOf a.params c a.z0 a.zi a.portionCount a.frameCount a.accumulator
      = .ok a.sealDigest) : a.Valid := by
  obtain ⟨hp, hf, _⟩ := sealOf_eq_ok.1 hsealed
  exact {
    format := hformat ▸ (by decide : IsNormal ProofArtifact.currentFormat)
    version := hversion ▸ (by decide : IsNormal ProofArtifact.currentVersion)
    backend := hbackend ▸ (by decide : IsNormal name)
    claim := hclaim
    portionCount_pos := hportions
    portionCount_lt := hp
    frameCount_pos := hframes
    frameCount_lt := hf }

/-- An artifact that was made for a valid claim is valid. -/
theorem Made.valid (h : b.Made c t a) (hc : c.Valid) : a.Valid := by
  obtain ⟨ps, hps, hcount, _⟩ := h.folded
  have hportions := List.length_pos_iff.2 (Folding.portions_ne_nil hps h.accepted.nonempty)
  have hframes := List.length_pos_iff.2 h.accepted.nonempty
  exact valid_of_sealed h.format h.version h.backend (h.claim ▸ hc) (hcount ▸ hportions)
    (h.frameCount ▸ hframes) h.sealed

/-- A trace that is accepted for a valid claim has an artifact, if its frames have circuits and the
numbers that are hashed can be written. -/
theorem exists_artifact {z w : Digest} (hc : c.Valid) (h : b.Accepts c t z w)
    (hcircuit : ∀ f ∈ t.frames, ∃ k, b.folding.circuit f.family = .ok k)
    (hp : b.folding.portion < integerBound) (hf : t.frames.length < integerBound) :
    ∃ a, b.Made c t a := by
  obtain ⟨params, hparams⟩ := params_eq_ok hp
  obtain ⟨ps, hps, hlen, acc, hacc⟩ :=
    exists_accumulated (startAccumulator params.digest z) h.leads hcircuit
  obtain ⟨sealed, hsealed⟩ :=
    exists_sealOf params.digest z w acc hc (Nat.lt_of_le_of_lt hlen hf) hf
  exact ⟨⟨ProofArtifact.currentFormat, ProofArtifact.currentVersion, name, params.digest, c,
    ps.length, t.frames.length, z, w, acc, sealed⟩, {
      claim := rfl, format := rfl, version := rfl, backend := rfl
      params := ⟨params, hparams, rfl⟩
      accepted := h
      frameCount := rfl
      folded := ⟨ps, hps, rfl, hacc⟩
      sealed := hsealed }⟩

/-! ## Proofs -/

theorem prove_eq_ok_iff : b.prove c t = .ok bytes ↔ ∃ a, b.Made c t a ∧ a.toBytes = .ok bytes := by
  simp only [prove, bind_eq_ok, artifact_eq_ok_iff, orFail_eq_ok]

/-- A trace that is accepted for a valid claim has a proof, if its frames have circuits and the
numbers that are hashed can be written. -/
theorem exists_prove {z w : Digest} (hc : c.Valid) (h : b.Accepts c t z w)
    (hcircuit : ∀ f ∈ t.frames, ∃ k, b.folding.circuit f.family = .ok k)
    (hp : b.folding.portion < integerBound) (hf : t.frames.length < integerBound) :
    ∃ bytes, b.prove c t = .ok bytes := by
  obtain ⟨a, hmade⟩ := exists_artifact hc h hcircuit hp hf
  obtain ⟨bytes, hbytes⟩ := (hmade.valid hc).exists_toBytes
  exact ⟨bytes, prove_eq_ok_iff.2 ⟨a, hmade, hbytes⟩⟩

/-- What an artifact has to show to be accepted for a claim. -/
structure Fits (b : HashFold) (c : Claim) (a : ProofArtifact) : Prop where
  format : a.format = ProofArtifact.currentFormat
  version : a.version = ProofArtifact.currentVersion
  backend : a.backend = name
  params : ∃ params, b.params = .ok params ∧ a.params = params.digest
  same : a.claim.same c = true
  start : c.start = .ok a.z0
  sealed : sealOf a.params c a.z0 a.zi a.portionCount a.frameCount a.accumulator
    = .ok a.sealDigest

/-- Bytes are accepted for a claim if an artifact is read from them that fits the claim. -/
theorem verify_eq_accepted_iff :
    b.verify c bytes = .ok .accepted ↔ ∃ a, ProofArtifact.ofBytes bytes = .ok a ∧ b.Fits c a := by
  constructor
  · intro h
    unfold verify at h
    split at h
    · exact absurd h (by simp)
    next a ha =>
      split at h
      · exact absurd h (by simp)
      next hformat =>
      split at h
      · exact absurd h (by simp)
      next hbackend =>
      obtain ⟨params, hparams, h⟩ := bind_eq_ok.1 h
      split at h
      · exact absurd h (by simp)
      next hdigest =>
      split at h
      · exact absurd h (by simp)
      next hsame =>
      obtain ⟨start, hstart, h⟩ := bind_eq_ok.1 h
      split at h
      · exact absurd h (by simp)
      next hz =>
      obtain ⟨sealed, hsealed, h⟩ := bind_eq_ok.1 h
      split at h
      · exact absurd h (by simp)
      next hseal =>
      rw [not_or, not_not, not_not] at hformat
      rw [orFail_eq_ok, ← not_not.1 hz] at hstart
      rw [← not_not.1 hseal] at hsealed
      exact ⟨a, ha, {
        format := hformat.1
        version := hformat.2
        backend := not_not.1 hbackend
        params := ⟨params, orFail_eq_ok.1 hparams, not_not.1 hdigest⟩
        same := by simpa using hsame
        start := hstart
        sealed := hsealed }⟩
  · rintro ⟨a, ha, h⟩
    obtain ⟨params, hparams, hdigest⟩ := h.params
    have hsealed := h.sealed
    rw [hdigest] at hsealed
    simp only [verify, ha, h.format, h.version, h.backend, hparams, hdigest, h.same, h.start,
      hsealed, orFail, bind, Except.bind, ne_eq, not_true_eq_false, or_self, if_false,
      Bool.not_true, Bool.false_eq_true]

/-- What is verified of the bytes that were made for a valid claim: they are accepted exactly if the
claim is equal to what was written of it. -/
theorem verify_of_made (hc : c.Valid) (h : b.Made c t a) (hb : a.toBytes = .ok bytes)
    (hf : b'.folding = b.folding) :
    b'.verify c bytes = .ok (if c.settled.same c = true then .accepted
      else .rejected .claimMismatch "Proof does not prove this claim") := by
  have hread := (h.valid hc).ofBytes hb
  obtain ⟨params, hparams, hdigest⟩ := h.params
  have hsealed := h.sealed
  rw [hdigest] at hsealed
  have hparams' : b'.params = .ok params := by rw [HashFold.params, hf]; exact hparams
  have hclaim : a.settled.claim = c.settled := congrArg Claim.settled h.claim
  by_cases hsame : c.settled.same c = true
  · rw [if_pos hsame]
    refine verify_eq_accepted_iff.2 ⟨a.settled, hread, {
      format := h.format, version := h.version, backend := h.backend
      params := ⟨params, hparams', hdigest⟩
      same := hclaim.symm ▸ hsame
      start := h.accepted.start
      sealed := h.sealed }⟩
  · have hformat : a.settled.format = ProofArtifact.currentFormat := h.format
    have hversion : a.settled.version = ProofArtifact.currentVersion := h.version
    have hbackend : a.settled.backend = name := h.backend
    have hdigest' : a.settled.params = params.digest := hdigest
    rw [if_neg hsame]
    simp only [verify, hread, hformat, hversion, hbackend, hparams', hdigest', hclaim, hsame,
      orFail, bind, Except.bind, ne_eq, not_true_eq_false, or_self, if_false, Bool.not_false,
      if_true]

/-- Portions of the default size can be written. -/
theorem default_portion_lt : ({} : HashFold).folding.portion < integerBound :=
  Nat.lt_of_lt_of_le (by decide : 10 < Nat.pow 10 2) (pow_le_integerBound (by decide))

/-- There are claims of a step with a given input and traces of two frames that have a proof for
them, whatever the digest in the middle. -/
theorem exists_proved {x : Json} (hx : x.Encodes) : ∃ c z w result, c.Valid ∧ c.input = x ∧
    c.output = .arr [.str "str", .str ""] ∧
      ∀ m, ∃ bytes, ({} : HashFold).prove c ⟨coreFrames z m w, result⟩ = .ok bytes := by
  obtain ⟨c, z, w, result, hc, hinput, houtput, haccepts⟩ := exists_accepted hx
  exact ⟨c, z, w, result, hc, hinput, houtput, fun m =>
    exists_prove hc (haccepts m) (forall_mem_coreFrames.2 ⟨⟨0, rfl⟩, ⟨0, rfl⟩⟩)
      default_portion_lt (lt_integerBound (by decide : 2 < 10))⟩

end HashFold

end CommitChain
