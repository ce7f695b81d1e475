import CommitChain.Proof.Artifact
import CommitChain.Proofs.Json.Bounded
import CommitChain.Proofs.Record
import CommitChain.Proofs.Text.Utf8

/-!
# Reading proof artifacts

The bytes of a valid artifact are read as the artifact with the settled claim (`Valid.ofBytes`), and
what is read from bytes has a valid claim (`valid_of_ofBytes`).
-/

namespace CommitChain

open CommitChain.Hash CommitChain.Text

theorem plain_natCast {n : Nat} (h : n < integerBound) : (Json.int (n : Int)).Plain :=
  Json.plain_int (by rwa [Int.natAbs_natCast])

namespace ProofArtifact

/-- Texts in normal form, a valid claim, and counts of at least one that can be written. -/
structure Valid (a : ProofArtifact) : Prop where
  format : IsNormal a.format
  version : IsNormal a.version
  backend : IsNormal a.backend
  claim : a.claim.Valid
  portionCount_pos : 1 ≤ a.portionCount
  portionCount_lt : a.portionCount < integerBound
  frameCount_pos : 1 ≤ a.frameCount
  frameCount_lt : a.frameCount < integerBound

/-- The artifact with the settled claim. -/
def settled (a : ProofArtifact) : ProofArtifact :=
  { a with claim := a.claim.settled }

/-- The members of an artifact. -/
def members (a : ProofArtifact) : List (String × Json) :=
  [("format", .str a.format), ("version", .str a.version), ("backend", .str a.backend),
    ("params", .str a.params.hex), ("claim", a.claim.toJson), ("num_steps", .int a.portionCount),
    ("num_frames", .int a.frameCount), ("z0", .str a.z0.hex), ("zi", .str a.zi.hex),
    ("accumulator", .str a.accumulator.hex), ("seal", .str a.sealDigest.hex)]

theorem distinct_members (a : ProofArtifact) : Json.Distinct (a.members.map Prod.fst) :=
  (by decide : Json.Distinct ["format", "version", "backend", "params", "claim", "num_steps",
    "num_frames", "z0", "zi", "accumulator", "seal"])

variable {a : ProofArtifact}

/-! ## Writing -/

theorem Valid.exists_canonical (h : a.Valid) : ∃ text, a.toJson.canonical = .ok text := by
  show ∃ text, (Json.obj a.members).canonical = .ok text
  refine Json.exists_canonical_obj ?_
  simp only [members, List.forall_mem_cons, List.not_mem_nil, false_imp_iff, implies_true, and_true,
    Json.exists_canonical_str, h.claim.exists_canonical, true_and]
  exact ⟨⟨_, (plain_natCast h.portionCount_lt).canonical⟩,
    ⟨_, (plain_natCast h.frameCount_lt).canonical⟩⟩

theorem Valid.exists_toBytes (h : a.Valid) : ∃ bytes, a.toBytes = .ok bytes := by
  obtain ⟨text, htext⟩ := h.exists_canonical
  exact ⟨_, map_eq_ok.2 ⟨text, htext, rfl⟩⟩

theorem Valid.depth_toJson (h : a.Valid) : a.toJson.depth ≤ Json.nestingLimit + 2 := by
  have hclaim := h.claim.depth_toJson
  show (Json.obj a.members).depth ≤ _
  rw [Json.depth, Nat.add_le_add_iff_right, Json.depthMembers_le]
  simp only [members, List.forall_mem_cons, List.not_mem_nil, false_imp_iff, implies_true, and_true,
    Json.depth, Nat.zero_le, hclaim]

/-! ## Reading -/

/-- The canonical form of a valid artifact passes the check, with the settled claim. -/
theorem Valid.check (h : a.Valid) (path : List String) :
    check path a.toJson.canonicalForm = .good a.settled := by
  have hn := a.distinct_members
  have hmember : ∀ {α : Type} {name : String} {check : Check α} {x : Json},
      Keyed.find? name a.members = some x →
      Check.member name check (Json.canonicalObject a.members) path
        = check (path ++ [name]) x.canonicalForm := Check.member_canonicalObject hn
  show ProofArtifact.check path (Json.obj a.members).canonicalForm = _
  rw [ProofArtifact.check, Check.object_canonicalForm hn]
  swap
  · exact fun k hk => hk
  rw [Check.memberOr_canonicalObject hn rfl, Check.text_str h.format,
    Check.memberOr_canonicalObject hn rfl, Check.text_str h.version,
    hmember rfl, Check.text_str h.backend, hmember rfl, Check.digest_hex,
    hmember rfl, h.claim.check, hmember rfl, Check.atLeast_int h.portionCount_pos,
    hmember rfl, Check.atLeast_int h.frameCount_pos, hmember rfl, Check.digest_hex,
    hmember rfl, Check.digest_hex, hmember rfl, Check.digest_hex, hmember rfl, Check.digest_hex]
  rfl

/-- The canonical text of a valid artifact, which may have a newline behind it, is read as the
artifact with the settled claim. -/
theorem Valid.ofBytes_append (h : a.Valid) {text : String} (ht : a.toJson.canonical = .ok text)
    {tail : String} (htail : tail.toList.all Json.isLayout = true) :
    ofBytes (text ++ tail).toUTF8 = .ok a.settled := by
  have hparse := Json.parse_canonical ht (Nat.le_trans h.depth_toJson (by decide)) htail
  rw [ProofArtifact.ofBytes, fromUTF8?_toUTF8]
  simp only [hparse, Check.run, h.check, Checked.toExcept]

/-- The bytes of a valid artifact are read as the artifact with the settled claim. -/
theorem Valid.ofBytes (h : a.Valid) {bytes : ByteArray} (hb : a.toBytes = .ok bytes) :
    ofBytes bytes = .ok a.settled := by
  obtain ⟨text, htext, rfl⟩ := map_eq_ok.1 hb
  have hread := h.ofBytes_append htext (show ("" : String).toList.all Json.isLayout = true from rfl)
  rwa [String.append_empty] at hread

/-- The claim of an artifact has passed the check of a claim, and both counts are at least one. -/
theorem parts_of_check {x : Json} {path : List String} (h : check path x = .good a) :
    ∃ members, x = .obj members ∧
      Check.member "claim" Claim.check members path = .good a.claim ∧
      Check.member "num_steps" (Check.atLeast 1) members path = .good a.portionCount ∧
      Check.member "num_frames" (Check.atLeast 1) members path = .good a.frameCount := by
  rw [check] at h
  obtain ⟨members, rfl, h₇⟩ := Check.object_eq_good h
  -- the six members behind the claim, the claim, and the four in front of it
  obtain ⟨_, h₆, _, _, ha⟩ := Checked.seq_eq_good.1 h₇
  obtain ⟨_, h₅, _, _, rfl⟩ := Checked.seq_eq_good.1 h₆
  obtain ⟨_, h₄, _, _, rfl⟩ := Checked.seq_eq_good.1 h₅
  obtain ⟨_, h₃, _, _, rfl⟩ := Checked.seq_eq_good.1 h₄
  obtain ⟨_, h₂, frames, hframes, rfl⟩ := Checked.seq_eq_good.1 h₃
  obtain ⟨_, h₁, portions, hportions, rfl⟩ := Checked.seq_eq_good.1 h₂
  obtain ⟨_, h₀, claim, hclaim, rfl⟩ := Checked.seq_eq_good.1 h₁
  obtain ⟨_, g₃, _, _, rfl⟩ := Checked.seq_eq_good.1 h₀
  obtain ⟨_, g₂, _, _, rfl⟩ := Checked.seq_eq_good.1 g₃
  obtain ⟨_, g₁, _, _, rfl⟩ := Checked.seq_eq_good.1 g₂
  obtain ⟨_, _, rfl⟩ := Checked.map_eq_good.1 g₁
  exact ⟨members, rfl, ha ▸ hclaim, ha ▸ hportions, ha ▸ hframes⟩

theorem ofBytes_eq_ok {bytes : ByteArray} (h : ofBytes bytes = .ok a) :
    ∃ s x, Json.parse s = .ok x ∧ check [] x = .good a := by
  unfold ofBytes at h
  split at h
  · exact absurd h (by simp)
  next s _ =>
    split at h
    · exact absurd h (by simp)
    next x hx =>
      split at h
      · exact absurd h (by simp)
      next hrun =>
        cases h
        exact ⟨s, x, hx, Checked.toExcept_eq_ok.1 hrun⟩

/-- What is read from bytes has a valid claim, and counts of at least one. -/
theorem valid_of_ofBytes {bytes : ByteArray} (h : ofBytes bytes = .ok a) :
    a.claim.Valid ∧ 1 ≤ a.portionCount ∧ 1 ≤ a.frameCount := by
  obtain ⟨_, x, hx, hcheck⟩ := ofBytes_eq_ok h
  obtain ⟨members, rfl, hclaim, hportions, hframes⟩ := parts_of_check hcheck
  obtain ⟨y, hy, hclaim⟩ := Check.member_eq_good.1 hclaim
  obtain ⟨_, _, hportions⟩ := Check.member_eq_good.1 hportions
  obtain ⟨_, _, hframes⟩ := Check.member_eq_good.1 hframes
  exact ⟨Claim.valid_of_check ((Json.wellFormed_parse hx).of_find? hy) hclaim,
    Check.le_of_atLeast hportions, Check.le_of_atLeast hframes⟩

theorem Valid.settled (h : a.Valid) : a.settled.Valid :=
  { h with claim := h.claim.settled }

/-- An artifact and the one with the settled claim have the same bytes. -/
theorem Valid.toBytes_settled (h : a.Valid) : a.settled.toBytes = a.toBytes := by
  obtain ⟨text, htext⟩ := h.exists_canonical
  obtain ⟨text', htext'⟩ := h.settled.exists_canonical
  have hclaim := h.claim.toJson_settled
  have hform : a.settled.toJson.canonicalForm = a.toJson.canonicalForm := by
    show (Json.obj a.settled.members).canonicalForm = (Json.obj a.members).canonicalForm
    rw [Json.canonicalForm, Json.canonicalForm]
    simp only [members, ProofArtifact.settled, Json.canonicalMembers, hclaim]
  have heq := Json.canonical_of_canonicalForm_eq htext (Json.canonical_eq_ok.1 htext').1 hform.symm
  rw [toBytes, toBytes, Json.canonicalBytes, Json.canonicalBytes, heq, htext]

end ProofArtifact

end CommitChain
